import Schemata.Proofs.Problem.Lines
import Mathlib.Data.List.Lex

/-!
Reading a drawn tree. A problem of a forest is addressed by positions, from the top of the forest downwards. The drawing
has a line for every address, in the order of addresses, and what stands on a line tells how long the address is and
what the label is. This is enough to tell forests apart, since the problems below one are those that follow it until an
address is no longer.
-/
namespace Schemata.Problem
variable {p q : Problem} {ps qs : List Problem} {a b : List Nat} {i j : Nat}

/-! ### Addresses -/

/-- The problem at an address: the positions in a forest, in the forest below, and so on. -/
def nodeAt? : List Problem → List Nat → Option Problem
  | _, [] => none
  | ps, [i] => ps[i]?
  | ps, i :: a => ps[i]?.bind fun p => nodeAt? p.children a

def nextSibling : List Nat → List Nat
  | [] => []
  | [i] => [i + 1]
  | i :: a => i :: nextSibling a

def hasNext (ps : List Problem) (a : List Nat) : Bool :=
  (nodeAt? ps (nextSibling a)).isSome

/-- The columns in front of the glyph, a group of them for each problem above: a bar if another one follows that. -/
def indentation (ps : List Problem) (a : List Nat) : String :=
  String.join ((List.range (a.length - 1)).map fun j => continuation (!hasNext ps (a.take (j + 1))))

/-- The line of the problem at an address: the columns, a glyph that tells whether the problem is the last of its list,
and the label. -/
def lineAt (ps : List Problem) (a : List Nat) : String :=
  indentation ps a ++ glyph (!hasNext ps a) ++ ((nodeAt? ps a).map label).getD ""

mutual

def addresses : List Problem → List (List Nat)
  | [] => []
  | p :: ps => [0] :: p.addressesBelow.map (0 :: ·) ++ (addresses ps).map (List.modifyHead (· + 1))

def addressesBelow : Problem → List (List Nat)
  | within _ ps => addresses ps
  | ofMember ps => addresses ps
  | _ => []

end

theorem addresses_cons (p : Problem) (ps : List Problem) :
    addresses (p :: ps) = [0] :: (addresses p.children).map (0 :: ·) ++ (addresses ps).map (List.modifyHead (· + 1)) := by
  rw [addresses]
  cases p <;> simp [addressesBelow, children, addresses]

/-- Induction on forests, with the forest below the first problem. -/
theorem forestInduction {motive : List Problem → Prop} (nil : motive [])
    (cons : ∀ p ps, motive p.children → motive ps → motive (p :: ps)) (ps : List Problem) : motive ps := by
  have below (ps : List Problem) (h : ∀ p ∈ ps, motive p.children) : motive ps := by
    induction ps with
    | nil => exact nil
    | cons p ps ih =>
      rw [List.forall_mem_cons] at h
      exact cons p ps h.1 (ih h.2)
  exact below ps fun p _ => childrenInduction (motive := fun p => motive p.children) (fun p ih => below _ ih) p

theorem nodeAt?_zero_cons (ha : a ≠ []) : nodeAt? (p :: ps) (0 :: a) = nodeAt? p.children a := by
  obtain ⟨i, a, rfl⟩ := List.exists_cons_of_ne_nil ha
  rfl

theorem nodeAt?_succ_cons : nodeAt? (p :: ps) ((i + 1) :: a) = nodeAt? ps (i :: a) := by
  cases a <;> rfl

theorem nodeAt?_nil (a : List Nat) : nodeAt? [] a = none := by
  rcases a with _ | ⟨i, _ | ⟨j, a⟩⟩ <;> rfl

theorem nil_not_mem_addresses (ps : List Problem) : [] ∉ addresses ps := by
  induction ps with
  | nil => simp [addresses]
  | cons p ps ih => simpa [addresses_cons] using ih

theorem exists_cons_of_mem_addresses (h : a ∈ addresses ps) : ∃ i b, a = i :: b :=
  List.exists_cons_of_ne_nil (ne_of_mem_of_not_mem h (nil_not_mem_addresses ps))

theorem zero_cons_mem_addresses : 0 :: a ∈ addresses (p :: ps) ↔ a = [] ∨ a ∈ addresses p.children := by
  have hshift : 0 :: a ∉ (addresses ps).map (List.modifyHead (· + 1)) := by
    rw [List.mem_map]
    rintro ⟨_ | ⟨i, b⟩, _, hb⟩ <;> cases hb
  simp [addresses_cons, hshift]

theorem succ_cons_mem_addresses : (i + 1) :: a ∈ addresses (p :: ps) ↔ i :: a ∈ addresses ps := by
  simp only [addresses_cons, List.cons_append, List.mem_cons, List.mem_append, List.mem_map]
  constructor
  · rintro (heq | ⟨_, _, heq⟩ | ⟨_ | ⟨j, b⟩, hb, heq⟩)
    · cases heq
    · cases heq
    · cases heq
    · obtain ⟨rfl, rfl⟩ : j = i ∧ b = a := by simpa using heq
      exact hb
  · exact fun h => .inr (.inr ⟨_, h, rfl⟩)

/-- The addresses of a forest are those that lead to a problem. -/
theorem mem_addresses : a ∈ addresses ps ↔ (nodeAt? ps a).isSome := by
  induction ps using forestInduction generalizing a with
  | nil => simp [addresses, nodeAt?_nil]
  | cons p ps ihp ihs =>
    rcases a with _ | ⟨_ | i, a⟩
    · exact iff_of_false (nil_not_mem_addresses _) (by simp [nodeAt?])
    · rw [zero_cons_mem_addresses]
      by_cases ha : a = []
      · subst ha
        exact iff_of_true (.inl rfl) rfl
      · rw [nodeAt?_zero_cons ha, ihp, or_iff_right ha]
    · rw [succ_cons_mem_addresses, nodeAt?_succ_cons, ihs]

/-- The addresses are listed in their order, each before those below it and those before what comes next. -/
theorem pairwise_addresses (ps : List Problem) : (addresses ps).Pairwise (· < ·) := by
  induction ps using forestInduction with
  | nil => exact .nil
  | cons p ps ihp ihs =>
    have hshift : ∀ b ∈ (addresses ps).map (List.modifyHead (· + 1)), ∀ a, 0 :: a < b := by
      intro b hb a
      obtain ⟨c, hc, rfl⟩ := List.mem_map.mp hb
      obtain ⟨i, c, rfl⟩ := exists_cons_of_mem_addresses hc
      exact List.cons_lt_cons_iff.mpr (.inl (Nat.succ_pos i))
    rw [addresses_cons, List.cons_append, List.pairwise_cons, List.pairwise_append]
    refine ⟨fun b hb => ?_, ?_, ?_, fun a ha b hb => ?_⟩
    · rcases List.mem_append.mp hb with hb | hb
      · obtain ⟨c, hc, rfl⟩ := List.mem_map.mp hb
        obtain ⟨i, c, rfl⟩ := exists_cons_of_mem_addresses hc
        exact List.cons_lt_cons_iff.mpr (.inr ⟨rfl, List.nil_lt_cons i c⟩)
      · exact hshift b hb []
    · exact ihp.map _ fun a b hab => List.cons_lt_cons_iff.mpr (.inr ⟨rfl, hab⟩)
    · refine List.pairwise_map.mpr (ihs.imp_of_mem fun {a b} ha hb hab => ?_)
      obtain ⟨i, a, rfl⟩ := exists_cons_of_mem_addresses ha
      obtain ⟨j, b, rfl⟩ := exists_cons_of_mem_addresses hb
      rw [List.modifyHead_cons, List.modifyHead_cons, List.cons_lt_cons_iff]
      exact (List.cons_lt_cons_iff.mp hab).imp Nat.succ_lt_succ (And.imp_left (congrArg Nat.succ))
    · obtain ⟨c, _, rfl⟩ := List.mem_map.mp ha
      exact hshift b hb c

/-- What is computed for every address: for the first problem, for those below it, and for those after it. -/
theorem map_addresses_cons {α : Type} {f g h : List Nat → α} (hbelow : ∀ i a, f (0 :: i :: a) = g (i :: a))
    (hafter : ∀ i a, f ((i + 1) :: a) = h (i :: a)) :
    (addresses (p :: ps)).map f = f [0] :: ((addresses p.children).map g ++ (addresses ps).map h) := by
  have hb : ∀ a ∈ addresses p.children, f (0 :: a) = g a := by
    intro a ha
    obtain ⟨i, a, rfl⟩ := exists_cons_of_mem_addresses ha
    exact hbelow i a
  have ha : ∀ a ∈ addresses ps, f (List.modifyHead (· + 1) a) = h a := by
    intro a ha
    obtain ⟨i, a, rfl⟩ := exists_cons_of_mem_addresses ha
    exact hafter i a
  rw [addresses_cons, List.cons_append, List.map_cons, List.map_append, List.map_map, List.map_map]
  exact congrArg _ (congrArg₂ _ (List.map_congr_left hb) (List.map_congr_left ha))

/-! ### Lines -/

theorem hasNext_zero : hasNext (p :: ps) [0] = !ps.isEmpty := by
  cases ps <;> rfl

theorem nextSibling_ne_nil (ha : a ≠ []) : nextSibling a ≠ [] := by
  rcases a with _ | ⟨i, _ | ⟨j, a⟩⟩
  · exact absurd rfl ha
  · exact List.cons_ne_nil _ _
  · exact List.cons_ne_nil _ _

theorem nextSibling_cons (ha : a ≠ []) : nextSibling (i :: a) = i :: nextSibling a := by
  obtain ⟨j, a, rfl⟩ := List.exists_cons_of_ne_nil ha
  rfl

theorem hasNext_zero_cons (ha : a ≠ []) : hasNext (p :: ps) (0 :: a) = hasNext p.children a := by
  rw [hasNext, nextSibling_cons ha, nodeAt?_zero_cons (nextSibling_ne_nil ha), hasNext]

theorem hasNext_succ_cons : hasNext (p :: ps) ((i + 1) :: a) = hasNext ps (i :: a) := by
  rcases a with _ | ⟨j, a⟩
  · exact congrArg Option.isSome nodeAt?_succ_cons
  · exact congrArg Option.isSome nodeAt?_succ_cons

theorem indentation_zero_cons (ha : a ≠ []) :
    indentation (p :: ps) (0 :: a) = continuation ps.isEmpty ++ indentation p.children a := by
  obtain ⟨i, a, rfl⟩ := List.exists_cons_of_ne_nil ha
  simp [indentation, List.range_succ_eq_map, hasNext_zero, hasNext_zero_cons, Function.comp_def]

theorem indentation_succ_cons : indentation (p :: ps) ((i + 1) :: a) = indentation ps (i :: a) := by
  simp only [indentation, List.length_cons, List.take_succ_cons, hasNext_succ_cons]

theorem lineAt_zero_cons (ha : a ≠ []) :
    lineAt (p :: ps) (0 :: a) = continuation ps.isEmpty ++ lineAt p.children a := by
  rw [lineAt, indentation_zero_cons ha, hasNext_zero_cons ha, nodeAt?_zero_cons ha, lineAt]
  simp only [String.append_assoc]

theorem lineAt_succ_cons : lineAt (p :: ps) ((i + 1) :: a) = lineAt ps (i :: a) := by
  rw [lineAt, indentation_succ_cons, hasNext_succ_cons, nodeAt?_succ_cons, lineAt]

theorem lineAt_zero : lineAt (p :: ps) [0] = glyph ps.isEmpty ++ p.label := by
  simp [lineAt, indentation, hasNext_zero, nodeAt?]

/-- The drawing of a forest has a line for each address. -/
theorem draw_eq_map (columns : String) (ps : List Problem) :
    draw false columns ps = (addresses ps).map fun a => columns ++ lineAt ps a := by
  induction ps using forestInduction generalizing columns with
  | nil => rfl
  | cons p ps ihp ihs =>
    have hlines : (addresses (p :: ps)).map (fun a => columns ++ lineAt (p :: ps) a) =
        (columns ++ lineAt (p :: ps) [0]) ::
          ((addresses p.children).map (fun a => columns ++ continuation ps.isEmpty ++ lineAt p.children a) ++
            (addresses ps).map fun a => columns ++ lineAt ps a) := by
      apply map_addresses_cons
      · intro i a
        rw [lineAt_zero_cons (List.cons_ne_nil i a), String.append_assoc]
      · intro i a
        rw [lineAt_succ_cons]
    rw [draw_cons, ihp, ihs, hlines, lineAt_zero, ← String.append_assoc, drawnLabel, Bool.false_and]
    rfl

/-! ### Reading lines -/

theorem append_inj_of_length {s t u v : String} (hl : s.length = u.length) (h : s ++ t = u ++ v) : s = u ∧ t = v := by
  rw [← String.toList_inj, String.toList_append, String.toList_append] at h
  have hboth := List.append_inj h (by rw [String.length_toList, String.length_toList, hl])
  exact ⟨String.toList_inj.mp hboth.1, String.toList_inj.mp hboth.2⟩

/-- The groups of columns, the glyph and the label can be told apart: all groups and glyphs are of one width, and a
glyph is no group of columns. What the label looks like does not matter. -/
theorem line_inj {bars bars' : List Bool} {last last' : Bool} {label label' : String}
    (h : String.join (bars.map continuation) ++ (glyph last ++ label) =
      String.join (bars'.map continuation) ++ (glyph last' ++ label')) :
    bars = bars' ∧ last = last' ∧ label = label' := by
  have hwidth : ∀ b c, (continuation b).length = (continuation c).length := by decide
  have hmixed : ∀ b c, (glyph b).length = (continuation c).length := by decide
  have hmarks : ∀ b c, (glyph b).length = (glyph c).length := by decide
  have hne : ∀ b c, glyph b ≠ continuation c := by decide
  -- Group by group: as long as both lines go on with columns, these are the same; a glyph can only face a glyph.
  induction bars generalizing bars' with
  | nil =>
    cases bars' with
    | nil =>
      obtain ⟨hglyph, hlabel⟩ := append_inj_of_length (hmarks _ _) (by simpa using h)
      have hlast : ∀ b c, glyph b = glyph c → b = c := by decide
      exact ⟨rfl, hlast _ _ hglyph, hlabel⟩
    | cons b bars' =>
      rw [List.map_cons, String.join_cons, String.append_assoc] at h
      exact absurd (append_inj_of_length (hmixed _ _) (by simpa using h)).1 (hne _ _)
  | cons b bars ih =>
    rw [List.map_cons, String.join_cons, String.append_assoc] at h
    cases bars' with
    | nil => exact absurd (append_inj_of_length (hmixed _ _).symm (by simpa using h)).1 (hne _ _).symm
    | cons c bars' =>
      rw [List.map_cons, String.join_cons, String.append_assoc] at h
      obtain ⟨hgroup, hrest⟩ := append_inj_of_length (hwidth b c) h
      have hbar : ∀ b c, continuation b = continuation c → b = c := by decide
      obtain ⟨hbars, hlast, hlabel⟩ := ih hrest
      exact ⟨by rw [hbar b c hgroup, hbars], hlast, hlabel⟩

def entryAt (ps : List Problem) (a : List Nat) : Nat × String :=
  (a.length - 1, ((nodeAt? ps a).map label).getD "")

def outline (ps : List Problem) : List (Nat × String) :=
  (addresses ps).map (entryAt ps)

theorem outline_cons (p : Problem) (ps : List Problem) :
    outline (p :: ps) = (0, p.label) :: ((outline p.children).map (Prod.map (· + 1) id) ++ outline ps) := by
  rw [outline, outline, List.map_map]
  exact map_addresses_cons (fun _ _ => rfl) fun i a => by rw [entryAt, nodeAt?_succ_cons]; rfl

/-- What is deeper at the start of an outline is what has been put in front of it. -/
theorem outline_split {es : List (Nat × String)} (h : ∀ e ∈ es, 0 < e.1) (ps : List Problem) :
    (es ++ outline ps).takeWhile (0 < ·.1) = es ∧ (es ++ outline ps).dropWhile (0 < ·.1) = outline ps := by
  have hall : ∀ e ∈ es, decide (0 < e.1) := fun e he => decide_eq_true (h e he)
  rw [List.takeWhile_append_of_pos hall, List.dropWhile_append_of_pos hall]
  cases ps with
  | nil => simp [outline, addresses]
  | cons p ps => simp [outline_cons]

/-- Forests have the same shape, and the same label at every address. -/
def Alike (ps qs : List Problem) : Prop :=
  ∀ a, (nodeAt? ps a).map label = (nodeAt? qs a).map label

theorem Alike.cons (hl : p.label = q.label) (hc : Alike p.children q.children) (hs : Alike ps qs) :
    Alike (p :: ps) (q :: qs) := by
  rintro (_ | ⟨_ | i, a⟩)
  · rfl
  · by_cases ha : a = []
    · subst ha
      exact congrArg some hl
    · rw [nodeAt?_zero_cons ha, nodeAt?_zero_cons ha]
      exact hc a
  · rw [nodeAt?_succ_cons, nodeAt?_succ_cons]
    exact hs _

/-- The problems below the first one are those that are deeper, up to the next one that is not. -/
theorem alike_of_outline (h : outline ps = outline qs) : Alike ps qs := by
  induction ps using forestInduction generalizing qs with
  | nil =>
    cases qs with
    | nil => exact fun _ => rfl
    | cons q qs => rw [outline_cons] at h; cases h
  | cons p ps ihp ihs =>
    cases qs with
    | nil => rw [outline_cons] at h; cases h
    | cons q qs =>
      rw [outline_cons, outline_cons, List.cons.injEq, Prod.mk.injEq] at h
      obtain ⟨⟨-, hl⟩, h⟩ := h
      -- In both outlines, what is below the first problem ends where the depth is back at zero.
      have hdeeper (r : Problem) : ∀ e ∈ (outline r.children).map (Prod.map (· + 1) id), 0 < e.1 := by
        intro e he
        obtain ⟨d, _, rfl⟩ := List.mem_map.mp he
        exact Nat.succ_pos d.1
      have hp := outline_split (hdeeper p) ps
      have hq := outline_split (hdeeper q) qs
      rw [h, hq.1, hq.2] at hp
      refine .cons hl (ihp ?_) (ihs hp.2.symm)
      have hinj : Function.Injective (Prod.map (· + 1) id : Nat × String → Nat × String) :=
        Function.Injective.prodMap (add_left_injective 1) Function.injective_id
      exact List.map_injective_iff.mpr hinj hp.1.symm

theorem indentation_eq (ps : List Problem) (a : List Nat) : indentation ps a =
    String.join (((List.range (a.length - 1)).map fun j => !hasNext ps (a.take (j + 1))).map continuation) := by
  rw [indentation, List.map_map]
  rfl

theorem length_indentation (ps : List Problem) (a : List Nat) : (indentation ps a).length = 3 * (a.length - 1) := by
  have hgroups (bars : List Bool) : (String.join (bars.map continuation)).length = 3 * bars.length := by
    have hwidth : ∀ b, (continuation b).length = 3 := by decide
    induction bars with
    | nil => rfl
    | cons b bars ih =>
      rw [List.map_cons, String.join_cons, String.length_append, hwidth, ih, List.length_cons]
      omega
  rw [indentation_eq, hgroups, List.length_map, List.length_range]

theorem outline_eq_of_lines (h : (addresses ps).map (lineAt ps) = (addresses qs).map (lineAt qs)) :
    outline ps = outline qs := by
  rw [outline, outline, ← List.forall₂_eq_eq_eq, List.forall₂_map_left_iff, List.forall₂_map_right_iff]
  rw [← List.forall₂_eq_eq_eq, List.forall₂_map_left_iff, List.forall₂_map_right_iff] at h
  refine h.imp fun a b hab => ?_
  rw [lineAt, lineAt, String.append_assoc, String.append_assoc, indentation_eq, indentation_eq] at hab
  obtain ⟨hbars, _, hlabel⟩ := line_inj hab
  have hlength := congrArg List.length hbars
  rw [List.length_map, List.length_map, List.length_range, List.length_range] at hlength
  rw [entryAt, entryAt, hlength, hlabel]

/-! ### Trees -/

def lines (s : String) : List String :=
  (s.toList.splitOn '\n').map String.ofList

theorem lines_intercalate {ls : List String} (hne : ls ≠ []) (h : ∀ l ∈ ls, OneLine l) :
    lines ("\n".intercalate ls) = ls := by
  have hsplit := List.splitOn_intercalate '\n' (List.forall_mem_map.mpr h) (List.map_eq_nil_iff.not.mpr hne)
  have hsep : "\n".toList = ['\n'] := rfl
  rw [lines, String.toList_intercalate, hsep, hsplit, List.map_map]
  simp [Function.comp_def]

/-- Below its header, a tree has a line for each address, in their order. -/
theorem lines_tree (hps : ∀ p ∈ ps, p.Straight) (h : isSingleLeaf ps = false) :
    lines (tree false ps) = header false ps :: (addresses ps).map (lineAt ps) := by
  obtain ⟨-, hlines⟩ : DrawnBy ps (draw false "" ps) := drawnBy_draw hps (by decide)
  have hdraw : draw false "" ps = (addresses ps).map (lineAt ps) := by simp [draw_eq_map]
  rw [tree_of_not_single h, lines_intercalate (List.cons_ne_nil _ _)
    (List.forall_mem_cons.mpr ⟨oneLine_header false ps, hlines⟩), hdraw]

/-- How many lines a tree has tells whether it is a single leaf. -/
theorem isSingleLeaf_eq_of_tree (hne : ps ≠ []) (hne' : qs ≠ []) (hps : ∀ p ∈ ps, p.Straight)
    (hqs : ∀ q ∈ qs, q.Straight) (h : tree false ps = tree false qs) : isSingleLeaf ps = isSingleLeaf qs := by
  have hnodes {rs : List Problem} (hr : rs ≠ []) : 0 < (nodesOfAll rs).length := by
    obtain ⟨r, rs, rfl⟩ := List.exists_cons_of_ne_nil hr
    simp [nodesOfAll, nodes_eq r]
  have hp := hnodes hne
  have hq := hnodes hne'
  have hcount := lineCount_tree hps false
  rw [h, lineCount_tree hqs false] at hcount
  -- A single leaf has one line, and any other tree has two at least.
  rw [Bool.eq_iff_iff]
  split at hcount <;> split at hcount <;> first | omega | simp_all

theorem alike_of_tree (hne : ps ≠ []) (hne' : qs ≠ []) (hps : ∀ p ∈ ps, p.Straight) (hqs : ∀ q ∈ qs, q.Straight)
    (h : tree false ps = tree false qs) : Alike ps qs := by
  have hsingle := isSingleLeaf_eq_of_tree hne hne' hps hqs h
  cases hp : isSingleLeaf ps with
  | true =>
    obtain ⟨p, rfl, hpl⟩ := tree_of_single hp false
    obtain ⟨q, rfl, hql⟩ := tree_of_single (hsingle ▸ hp) false
    have leaf {r : Problem} (hr : isSingleLeaf [r]) : r.children = [] := by
      cases r with
      | within | ofMember => cases hr
      | _ => rfl
    refine .cons (hpl.symm.trans (h.trans hql)) ?_ fun _ => rfl
    rw [leaf hp, leaf (hsingle ▸ hp)]
    exact fun _ => rfl
  | false =>
    have hlines := congrArg lines h
    rw [lines_tree hps hp, lines_tree hqs (hsingle ▸ hp), List.cons.injEq] at hlines
    exact alike_of_outline (outline_eq_of_lines hlines.2)

/-- Trees that are drawn alike are alike: a tree tells the shape of its forest, and the label at every address. Below
the header, its lines are those of the addresses in their order, with three columns for each problem above; a single
leaf is drawn as its label, without a header. -/
theorem tree_determines (hne : ps ≠ []) (hne' : qs ≠ []) (hps : ∀ p ∈ ps, p.Straight) (hqs : ∀ q ∈ qs, q.Straight) :
    (tree false ps = tree false qs → ∀ a, (nodeAt? ps a).map label = (nodeAt? qs a).map label) ∧
      (isSingleLeaf ps = false → ∃ as : List (List Nat), as.Pairwise (· < ·) ∧
        (∀ a, a ∈ as ↔ (nodeAt? ps a).isSome) ∧ lines (tree false ps) = header false ps :: as.map (lineAt ps)) ∧
      (isSingleLeaf ps → ∃ p, ps = [p] ∧ tree false ps = p.label) ∧
      ∀ a, (indentation ps a).length = 3 * (a.length - 1) :=
  ⟨alike_of_tree hne hne' hps hqs, fun h => ⟨addresses ps, pairwise_addresses ps, fun _ => mem_addresses,
    lines_tree hps h⟩, fun h => tree_of_single h false, length_indentation ps⟩

def forest : List Problem :=
  [.within (.key (.text "└─ 1 error(s) found")) [.missing], .anomaly (.int 0) .notFinite]

def flatForest : List Problem :=
  [.within (.key (.text "└─ 1 error(s) found")) [], .missing, .anomaly (.int 0) .notFinite]

example : tree false forest =
    "2 error(s) found\n├─ key └─ 1 error(s) found\n│  └─ did not satisfy is(required)\n└─ did not satisfy isFinite" := by
  cbv

/-- The two forests are drawn differently, as only one of them has a problem below its first one. -/
theorem tree_determines_forest :
    forest ≠ [] ∧ flatForest ≠ [] ∧ (∀ p ∈ forest, p.Straight) ∧ (∀ p ∈ flatForest, p.Straight) ∧
      isSingleLeaf forest = false ∧ tree false forest ≠ tree false flatForest ∧
      ∃ as : List (List Nat), (∀ a, a ∈ as ↔ (nodeAt? forest a).isSome) ∧
        lines (tree false forest) = header false forest :: as.map (lineAt forest) := by
  have hkey : OneLine (Segment.key (.text "└─ 1 error(s) found")).label := by decide
  have hmissing : missing.Straight := straight_iff.mpr ⟨by decide, nofun⟩
  have hanomaly : (anomaly (.int 0) .notFinite).Straight := straight_iff.mpr ⟨by decide, nofun⟩
  have hforest : ∀ p ∈ forest, p.Straight := by
    simp only [forest, List.forall_mem_cons]
    exact ⟨straight_iff.mpr ⟨hkey, List.forall_mem_singleton.mpr hmissing⟩, hanomaly, nofun⟩
  have hflat : ∀ p ∈ flatForest, p.Straight := by
    simp only [flatForest, List.forall_mem_cons]
    exact ⟨straight_iff.mpr ⟨hkey, nofun⟩, hmissing, hanomaly, nofun⟩
  obtain ⟨halike, hlines, -, -⟩ := tree_determines (List.cons_ne_nil _ _) (List.cons_ne_nil _ _) hforest hflat
  obtain ⟨as, -, hmem, has⟩ := hlines rfl
  refine ⟨List.cons_ne_nil _ _, List.cons_ne_nil _ _, hforest, hflat, rfl, fun h => ?_, as, hmem, has⟩
  cases halike h [0, 0]

end Schemata.Problem
