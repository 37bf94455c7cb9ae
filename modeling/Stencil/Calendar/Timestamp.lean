import Stencil.Calendar.DateText
import Stencil.Calendar.Period
import Stencil.Json.Printer
import Stencil.Binary64.Scientific

/-!
# Timestamps

A timestamp is a number of milliseconds since the start of 1970, in UTC. A template names one by a
number, by a numeral, or relative to the present as `now` and a list of periods.
-/

namespace Stencil.Calendar

def formatMillis (millis : Int) (pattern : DatePattern) : Except HelperError Text :=
  match Moment.ofMillis? millis with
  | some moment => .ok (pattern.print moment.date)
  | none => .error (.timestampOutOfRange millis)

/-- The moment that the period in a token leads to. -/
def applyToken (moment : Moment) (token : Text) : Except HelperError Moment := do
  (← Period.parse token).apply moment

/-- The moment that several periods lead to, each read when its turn comes. -/
def applyPeriods (moment : Moment) (tokens : List Text) : Except HelperError Moment :=
  tokens.foldlM applyToken moment

/-- The timestamp that several periods lead to from the present. -/
def afterPeriods (now : Int) (tokens : List Text) : Except HelperError Int :=
  match Moment.ofMillis? now with
  | some moment => (applyPeriods moment tokens).map Moment.millis
  | none => .error (.timestampOutOfRange now)

/-- The tokens of a list of periods; commas at its end count for nothing. -/
def periodTokens (t : Text) : List Text :=
  let t := Text.dropEndWhile (· == ',') t
  if t.isEmpty then [] else Text.fields ',' t

def notATimestamp (found : Text) : HelperError :=
  .illegalArgumentType "longVal".toList found

/-- The timestamp that a text without blanks around it names. -/
def resolveText (t : Text) (now : Int) : Except HelperError Int :=
  if t = [] ∨ t = ['0'] then .ok now
  else
    match Text.afterPrefix? ['n', 'o', 'w'] t with
    | some periods => afterPeriods now (periodTokens periods)
    | none =>
      match Numeral.toSigned? t with
      | some millis => .ok millis
      | none =>
        match FloatReading.ofText? t with
        | some reading => .ok reading.toSigned
        | none => .error (notATimestamp t)

/-- The timestamp that a value names. An absent value, null and the number zero name the
present. -/
def resolve (value : Option Json) (now : Int) : Except HelperError Int :=
  match value with
  | none | some .null => .ok now
  | some (.number n) => .ok (if n.isZero then now else n.toSigned)
  | some (.string s) => resolveText (Text.trim s) now
  | some other => .error (notATimestamp other.text)

end Stencil.Calendar
