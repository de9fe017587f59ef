import Schemata.Proofs.Value.Entries
import Schemata.Value.Class

/-!
Symmetry and reflexivity of equality. A mapping is compared by looking for each of its entries in the other one, and a
set by looking for each of its items; where no entry and no item is found twice, the comparison can be turned around. A
value differs from itself only where not-a-number stands in it.
-/
namespace Schemata.Value

def orderly : Value → Bool :=
  everywhere fun
    | set items => Entries.distinct (items.map fun v => (v, v))
    | v => v.entries?.all Entries.distinct

variable {v w : Value}

theorem orderly_part (h : v.orderly) (hw : w ∈ v.parts) : w.orderly :=
  ((everywhere_iff _ v).mp h).2 w hw

theorem distinct_of_orderly (h : v.orderly) {es : Entries} (he : v.entries? = some es) : es.distinct := by
  have hnode := ((everywhere_iff _ v).mp h).1
  cases v with
  | dict | view => simpa [entries?, Option.some.inj he] using hnode
  | _ => cases he

/-- Different keys do not both equal one value. -/
theorem not_equals_of_differs {a b : Value} (hb : b.hashable) (h : a.equals b = false) (k : a.equals w) :
    ¬b.equals w := by
  intro hbw
  have hab := equals_trans k (equals_symm hb hbw)
  rw [h] at hab
  cases hab

/-- Equality with an orderly value can be turned around. -/
theorem equals_symm_of_orderly (hv : v.orderly) (h : v.equals w) : w.equals v := by
  induction v using partsInduction generalizing w with
  | step v ih =>
    have part {u y : Value} (hu : u ∈ v.parts) (h : u.equals y) : y.equals u := ih u hu (orderly_part hv hu) h
    have items {xs ys : List Value} (hxs : ∀ x ∈ xs, x ∈ v.parts) (h : List.Forall₂ (fun x y => x.equals y) xs ys) :
        List.Forall₂ (fun y x => y.equals x) ys xs :=
      Lists.forall₂_symm h fun x hx _ => part (hxs x hx)
    rw [equals, equalsUpTo_iff] at h ⊢
    cases h with
    | null => exact .null
    | undefined => exact .undefined
    | text s => exact .text s
    | symbol k => exact .symbol k
    | bytes d => exact .bytes d
    | number hx hy h => exact .number hy hx (Numeral.equals_symm h)
    | list h => exact .list (items (fun _ hx => hx) h)
    | tuple h => exact .tuple (items (fun _ hx => hx) h)
    | array h => exact .array (items (fun _ hx => hx) h)
    | @set xs ys hl h =>
      have hdistinct : Entries.distinct (xs.map fun x => (x, x)) := ((everywhere_iff _ _).mp hv).1
      obtain ⟨hkeys, hpairs⟩ := (Entries.distinct_iff _).mp hdistinct
      rw [List.forall_mem_map] at hkeys
      rw [List.pairwise_map] at hpairs
      refine .set hl.symm fun y hy => ?_
      obtain ⟨x, hx, hxy⟩ := Lists.exists_of_mem_of_distinct hl h
        (hpairs.imp_of_mem fun _ hb hab _ hay => not_equals_of_differs (hkeys _ hb) hab hay) y hy
      exact ⟨x, hx, part hx hxy⟩
    | @mapping _ _ es fs he hf hl h =>
      obtain ⟨hkeys, hpairs⟩ := (Entries.distinct_iff _).mp (distinct_of_orderly hv he)
      refine .mapping hf he hl.symm fun f hfm => ?_
      obtain ⟨e, hem, hk, hx⟩ := Lists.exists_of_mem_of_distinct hl h
        (hpairs.imp_of_mem fun _ hb hab _ hag hbg => not_equals_of_differs (hkeys _ hb) hab hag.1 hbg.1) f hfm
      have hparts := mem_parts_of_entries he hem
      exact ⟨e, hem, part hparts.1 hk, part hparts.2 hx⟩

def nanFree : Value → Bool :=
  everywhere fun v => !v.isNaN

theorem exists_place {n : Numeral} (h : v.numeral? = some n) (hv : v.isNaN = false) : ∃ p, n.place? = some p := by
  have float {x : Double} (hx : x.isNaN = false) : ∃ p, (Numeral.float x).place? = some p := by
    cases x with
    | nan => cases hx
    | infinite | finite => exact ⟨_, rfl⟩
  cases v with
  | bool | int => cases h; exact ⟨_, rfl⟩
  | float x => cases h; exact float hv
  | cell c =>
    cases c with
    | float32 x | float64 x => cases h; exact float hv
    | _ => cases h; exact ⟨_, rfl⟩
  | _ => cases h

theorem equals_self_of_nanFree (h : v.nanFree) : v.equals v := by
  induction v using partsInduction with
  | step v ih =>
    obtain ⟨hv, hparts⟩ := (everywhere_iff _ v).mp h
    refine equalsUpTo_self (fun n hn => ?_) fun w hw => ih w hw (hparts w hw)
    obtain ⟨p, hp⟩ := exists_place hn (by simpa using hv)
    exact (Numeral.equals_iff n n).mpr ⟨p, hp, hp⟩

end Schemata.Value
