import Schemata.Problem.Basic
import Schemata.Value.Render

/-!
Problems as single lines. A line names the path to each leaf, and the leaves of one branch are separated by commas.
-/
namespace Schemata

namespace Segment

def pathText : Segment → String
  | key k => k.plain
  | index i => toString i

def label : Segment → String
  | key k => "key " ++ k.plain
  | index i => "index " ++ toString i

end Segment

namespace Problem

def unsatisfied (actual : Value) (predicate : String) : String :=
  actual.render ++ " did not satisfy " ++ predicate

/-- The override if it says something, and else the wording. -/
def worded (override : Option String) (wording : String) : String :=
  match override with
  | some text => if text = "" then wording else text
  | none => wording

def isPredicate (kind : String) : String :=
  "is(" ++ kind ++ ")"

/-- What a leaf says; a branch by itself says nothing. -/
def leafMessage : Problem → String
  | mismatch predicate actual override => worded override (unsatisfied actual predicate)
  | missing => "did not satisfy is(required)"
  | unexpected (.key _) => "key is unexpected"
  | unexpected (.index _) => "index is unexpected"
  | violation label actual override => worded override (unsatisfied actual (isPredicate label))
  | conversion source target actual override =>
    worded override (unsatisfied actual ("parsing from (" ++ source ++ ") to (" ++ target ++ ")"))
  | anomaly _ .notANumber => "did not satisfy not(isNaN)"
  | anomaly _ .notFinite => "did not satisfy isFinite"
  | within _ _ => ""
  | ofMember _ => ""

mutual

def message : Problem → String
  | within segment ps => "/" ++ segment.pathText ++ " " ++ ", ".intercalate (messages ps)
  | ofMember ps => "member: " ++ ", ".intercalate (messages ps)
  | leaf => leaf.leafMessage

def messages : List Problem → List String
  | [] => []
  | p :: ps => p.message :: messages ps

end

def line (ps : List Problem) : String :=
  ", ".intercalate (messages ps)

def label : Problem → String
  | within segment _ => segment.label
  | ofMember _ => "union member"
  | leaf => leaf.leafMessage

end Problem

end Schemata
