import Schemata.Proofs.Decode.Shape
import Schemata.Proofs.Text.Lines

/-!
Problems on lines. Where every problem of a report has a label on one line, messages are on one line, and the drawn tree
has a line for each problem below its header.
-/
namespace Schemata

theorem oneLine_label_segment {s : Segment} : OneLine s.label ↔ OneLine s.pathText := by
  have hindex : OneLine "index " := by decide
  have hkey : OneLine "key " := by decide
  cases s <;> simp [Segment.label, Segment.pathText, oneLine_append_iff, hindex, hkey]

namespace Problem
variable {p : Problem} {ps : List Problem}

def Straight (p : Problem) : Prop :=
  ∀ q ∈ p.nodes, OneLine q.label

theorem nodes_eq (p : Problem) : p.nodes = p :: nodesOfAll p.children := by
  cases p <;> simp [nodes, children, nodesOfAll]

theorem straight_iff : p.Straight ↔ OneLine p.label ∧ ∀ q ∈ p.children, q.Straight := by
  simp only [Straight, nodes_eq p, List.forall_mem_cons, mem_nodesOfAll_iff]
  refine and_congr_right fun _ => ⟨fun h q hq r hr => h r ⟨q, hq, hr⟩, ?_⟩
  rintro h r ⟨q, hq, hr⟩
  exact h q hq r hr

theorem sizeOf_child_lt {q : Problem} (h : q ∈ p.children) : sizeOf q < sizeOf p := by
  cases p with
  | within s ps =>
    have hm : sizeOf q < sizeOf ps := List.sizeOf_lt_of_mem h
    rw [within.sizeOf_spec]
    omega
  | ofMember ps =>
    have hm : sizeOf q < sizeOf ps := List.sizeOf_lt_of_mem h
    rw [ofMember.sizeOf_spec]
    omega
  | _ => cases h

/-- Induction on the problems that branches group. -/
theorem childrenInduction {motive : Problem → Prop} (step : ∀ p, (∀ q ∈ p.children, motive q) → motive p)
    (p : Problem) : motive p :=
  step p fun q hq => have := sizeOf_child_lt hq; childrenInduction step q
termination_by sizeOf p

theorem messages_eq_map (ps : List Problem) : messages ps = ps.map message := by
  induction ps with
  | nil => rfl
  | cons p ps ih => rw [messages, ih, List.map_cons]

/-- A message is on one line. -/
theorem oneLine_message (h : p.Straight) : OneLine p.message := by
  induction p using childrenInduction with
  | step p ih =>
    obtain ⟨hlabel, hchildren⟩ := straight_iff.mp h
    have hbelow : OneLine (", ".intercalate (messages p.children)) := by
      rw [messages_eq_map]
      exact oneLine_intercalate (by decide) (List.forall_mem_map.mpr fun q hq => ih q hq (hchildren q hq))
    cases p with
    | within s ps =>
      rw [message]
      simp only [oneLine_append_iff]
      exact ⟨⟨⟨by decide, oneLine_label_segment.mp hlabel⟩, by decide⟩, hbelow⟩
    | ofMember ps =>
      rw [message, oneLine_append_iff]
      exact ⟨by decide, hbelow⟩
    | _ => exact hlabel

theorem draw_cons (color : Bool) (columns : String) (p : Problem) (ps : List Problem) :
    draw color columns (p :: ps) = (columns ++ glyph ps.isEmpty ++ p.drawnLabel color) ::
      (draw color (columns ++ continuation ps.isEmpty) p.children ++ draw color columns ps) := by
  rw [draw]
  cases p <;> simp [drawBelow, children, draw]

theorem oneLine_drawnLabel (h : OneLine p.label) (color : Bool) : OneLine (p.drawnLabel color) := by
  unfold drawnLabel
  split
  · simp only [styled, oneLine_append_iff]
    exact ⟨⟨by decide, h⟩, by decide⟩
  · exact h

def DrawnBy (ps : List Problem) (lines : List String) : Prop :=
  lines.length = (nodesOfAll ps).length ∧ ∀ l ∈ lines, OneLine l

/-- A forest of straight problems is drawn with one line for each of them. -/
theorem drawnBy_of_children {color : Bool} {columns : String} (hps : ∀ p ∈ ps, p.Straight) (hc : OneLine columns)
    (h : ∀ p ∈ ps, ∀ columns, OneLine columns → DrawnBy p.children (draw color columns p.children)) :
    DrawnBy ps (draw color columns ps) := by
  induction ps with
  | nil => exact ⟨rfl, by simp [draw]⟩
  | cons p ps ih =>
    rw [List.forall_mem_cons] at hps h
    have hglyph : OneLine (glyph ps.isEmpty) := by cases ps.isEmpty <;> decide
    have hcontinuation : OneLine (continuation ps.isEmpty) := by cases ps.isEmpty <;> decide
    obtain ⟨hbelow, hbelowLines⟩ := h.1 (columns ++ continuation ps.isEmpty)
      (oneLine_append_iff.mpr ⟨hc, hcontinuation⟩)
    obtain ⟨hrest, hrestLines⟩ := ih hps.2 h.2
    rw [draw_cons]
    constructor
    · simp only [List.length_cons, List.length_append, nodesOfAll, nodes_eq p, hbelow, hrest]
      omega
    · simp only [List.forall_mem_cons, List.forall_mem_append, oneLine_append_iff]
      exact ⟨⟨⟨hc, hglyph⟩, oneLine_drawnLabel (straight_iff.mp hps.1).1 color⟩, hbelowLines, hrestLines⟩

theorem drawnBy_draw {color : Bool} {columns : String} (hps : ∀ p ∈ ps, p.Straight) (hc : OneLine columns) :
    DrawnBy ps (draw color columns ps) := by
  have children (p : Problem) (hp : p.Straight) :
      ∀ columns, OneLine columns → DrawnBy p.children (draw color columns p.children) := by
    induction p using childrenInduction with
    | step p ih =>
      have hchildren := (straight_iff.mp hp).2
      exact fun columns hc => drawnBy_of_children hchildren hc fun q hq => ih q hq (hchildren q hq)
  exact drawnBy_of_children hps hc fun p hp => children p (hps p hp)

theorem oneLine_header (color : Bool) (ps : List Problem) : OneLine (header color ps) := by
  have htext : OneLine (toString ps.length ++ " error(s) found") :=
    oneLine_append_iff.mpr ⟨oneLine_nat _, by decide⟩
  unfold header
  dsimp only
  split
  · simp only [styled, oneLine_append_iff] at htext ⊢
    exact ⟨⟨by decide, htext⟩, by decide⟩
  · exact htext

def isSingleLeaf : List Problem → Bool
  | [p] => !p.isBranch
  | _ => false

/-- Whatever is not a single leaf is drawn below a header. -/
theorem tree_of_not_single (h : isSingleLeaf ps = false) (color : Bool) :
    tree color ps = "\n".intercalate (header color ps :: draw color "" ps) := by
  unfold tree
  split
  · exact if_pos (by simpa [isSingleLeaf] using h)
  · rfl

/-- A single leaf is drawn as its label. -/
theorem tree_of_single (h : isSingleLeaf ps) (color : Bool) : ∃ p, ps = [p] ∧ tree color ps = p.label := by
  rcases ps with _ | ⟨p, _ | ⟨q, ps⟩⟩
  · cases h
  · refine ⟨p, rfl, ?_⟩
    cases p with
    | within | ofMember => cases h
    | _ => rfl
  · cases h

/-- A drawn tree has a line for its header and one for each problem, and a single leaf is on one line. -/
theorem lineCount_tree (hps : ∀ p ∈ ps, p.Straight) (color : Bool) :
    lineCount (tree color ps) = if isSingleLeaf ps then 1 else (nodesOfAll ps).length + 1 := by
  cases h : isSingleLeaf ps with
  | true =>
    obtain ⟨p, rfl, htree⟩ := tree_of_single h color
    rw [htree]
    exact lineCount_of_oneLine (straight_iff.mp (hps p List.mem_cons_self)).1
  | false =>
    obtain ⟨hlength, hlines⟩ : DrawnBy ps (draw color "" ps) := drawnBy_draw hps (by decide)
    rw [tree_of_not_single h, lineCount_intercalate (List.cons_ne_nil _ _), List.length_cons, hlength]
    · rfl
    · exact List.forall_mem_cons.mpr ⟨oneLine_header color ps, hlines⟩

end Problem
end Schemata
