import Schemata.Problem.Message

/-!
Problems drawn as a tree. The drawing lists the problems in preorder, one line each, indented by three columns per
level; a bar continues through the lines below a problem while a sibling of it is still to come.
-/
namespace Schemata

structure ColorSetting where
  forbidden : Option String
  switch : Option String
  deriving DecidableEq, Repr

/-- Colour is used unless it is forbidden by any text at all, or switched off by one of four words. -/
def ColorSetting.enabled (s : ColorSetting) : Bool :=
  !(s.forbidden.any (· != "")) && !(["0", "false", "no", "never"].contains ((s.switch.getD "").toLower))

namespace Problem

def styled (codes text : String) : String :=
  codes ++ text ++ "\x1b[0m"

def glyph (last : Bool) : String :=
  if last then "└─ " else "├─ "

def continuation (last : Bool) : String :=
  if last then "   " else "│  "

def drawnLabel (color : Bool) (p : Problem) : String :=
  if color && p.isBranch then styled "\x1b[36m" p.label else p.label

mutual

def draw (color : Bool) (columns : String) : List Problem → List String
  | [] => []
  | p :: ps =>
    (columns ++ glyph ps.isEmpty ++ p.drawnLabel color) ::
      (p.drawBelow color (columns ++ continuation ps.isEmpty) ++ draw color columns ps)

def drawBelow (color : Bool) (columns : String) : Problem → List String
  | within _ ps => draw color columns ps
  | ofMember ps => draw color columns ps
  | _ => []

end

def header (color : Bool) (ps : List Problem) : String :=
  let text := toString ps.length ++ " error(s) found"
  if color then styled "\x1b[1m\x1b[31m" text else text

/-- The drawn forest under its header. A single leaf is only its message. -/
def tree (color : Bool) (ps : List Problem) : String :=
  match ps with
  | [p] => if p.isBranch then "\n".intercalate (header color ps :: draw color "" ps) else p.leafMessage
  | _ => "\n".intercalate (header color ps :: draw color "" ps)

end Problem

end Schemata
