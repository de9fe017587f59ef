import Schemata.Proofs.Decode.Memo
import Mathlib.Data.Finset.Card
import Mathlib.Data.List.Induction

/-!
Forcing lazy schemas one after another in a session that starts out empty. Nodes may share a handle, and a thunk may fail
at one time and not at another. What is remembered for a handle is what the first call gave that did not fail, and a
call that fails is as if it had not been made.
-/
namespace Schemata

/-- A call that forces a lazy schema: the handle of the node, and what its thunk gives if it is called at this time. -/
structure Forcing where
  handle : Handle
  thunk : Except Fault Schema

namespace Session
variable {session : Session} {calls : List Forcing} {c : Forcing} {h : Handle}

/-- Makes one call after another; the answer to each is kept, be it a schema or a fault. -/
def forceAll : List Forcing → StateM Session (List (Except Fault Schema))
  | [] => return []
  | c :: cs => do
    let answer ← modifyGet fun session => session.force c.handle c.thunk
    return answer :: (← forceAll cs)

def answers (calls : List Forcing) : List (Except Fault Schema) :=
  ((forceAll calls).run empty).1

def afterAll (calls : List Forcing) : Session :=
  ((forceAll calls).run empty).2

def firstSuccess (calls : List Forcing) (h : Handle) : Option Schema :=
  calls.findSome? fun c => if c.handle = h then c.thunk.toOption else none

def succeeded (calls : List Forcing) : List Handle :=
  ((calls.zip (answers calls)).filter fun p => p.2.isOk).map fun p => p.1.handle

theorem run_forceAll_append (session : Session) (before after : List Forcing) :
    (forceAll (before ++ after)).run session =
      (((forceAll before).run session).1 ++ ((forceAll after).run ((forceAll before).run session).2).1,
        ((forceAll after).run ((forceAll before).run session).2).2) := by
  induction before generalizing session with
  | nil => rfl
  | cons c cs ih => exact congrArg (fun r => (_ :: r.1, r.2)) (ih _)

theorem answers_append (before after : List Forcing) :
    answers (before ++ after) = answers before ++ ((forceAll after).run (afterAll before)).1 :=
  congrArg Prod.fst (run_forceAll_append empty before after)

theorem answers_concat (calls : List Forcing) (c : Forcing) :
    answers (calls ++ [c]) = answers calls ++ [((afterAll calls).force c.handle c.thunk).1] :=
  answers_append calls [c]

theorem afterAll_concat (calls : List Forcing) (c : Forcing) :
    afterAll (calls ++ [c]) = ((afterAll calls).force c.handle c.thunk).2 :=
  congrArg Prod.snd (run_forceAll_append empty calls [c])

theorem length_answers (calls : List Forcing) : (answers calls).length = calls.length := by
  induction calls using List.reverseRecOn with
  | nil => rfl
  | append_singleton calls c ih => simp [answers_concat, ih]

theorem firstSuccess_concat (calls : List Forcing) (c : Forcing) (h : Handle) :
    firstSuccess (calls ++ [c]) h =
      (firstSuccess calls h).or (if c.handle = h then c.thunk.toOption else none) := by
  simp [firstSuccess, List.findSome?_append]

theorem succeeded_concat (calls : List Forcing) (c : Forcing) :
    succeeded (calls ++ [c]) = succeeded calls ++
      (if ((afterAll calls).force c.handle c.thunk).1.isOk then [c.handle] else []) := by
  rw [succeeded, answers_concat, List.zip_append (length_answers calls).symm]
  rw [List.filter_append, List.map_append, succeeded]
  cases h : ((afterAll calls).force c.handle c.thunk).1.isOk <;> simp [h]

/-- A session remembers what calls on each handle gave first, each handle once. -/
structure Records (session : Session) (calls : List Forcing) : Prop where
  lookup : ∀ h, session.forced.lookup h = firstSuccess calls h
  distinct : (session.forced.map Prod.fst).Nodup

theorem records_empty : empty.Records [] :=
  ⟨fun _ => rfl, .nil⟩

theorem lookup_eq_none_iff {es : List (Handle × Schema)} : es.lookup h = none ↔ h ∉ es.map Prod.fst := by
  rw [List.lookup_eq_none_iff, List.mem_map]
  constructor
  · rintro hne ⟨e, he, rfl⟩
    exact bne_iff_ne.mp (hne e he) rfl
  · exact fun hmem e he => bne_iff_ne.mpr fun heq => hmem ⟨e, he, heq.symm⟩

/-- The step lemma. The answer to a call is what is remembered, or else what the thunk gives; a fault leaves the session
as it was. -/
theorem Records.force (hs : session.Records calls) (c : Forcing) :
    (session.force c.handle c.thunk).2.Records (calls ++ [c]) ∧
      match firstSuccess (calls ++ [c]) c.handle with
      | some s => (session.force c.handle c.thunk).1 = .ok s
      | none => ∃ f, c.thunk = .error f ∧ session.force c.handle c.thunk = (.error f, session) := by
  have hlookup := hs.lookup c.handle
  have hother {es : List (Handle × Schema)} (hes : ∀ h, es.lookup h = firstSuccess calls h)
      (hc : (firstSuccess calls c.handle).isSome ∨ c.thunk.toOption = none) (h : Handle) :
      es.lookup h = firstSuccess (calls ++ [c]) h := by
    rw [hes, firstSuccess_concat]
    split
    · rename_i heq
      subst heq
      rcases hc with hc | hc
      · exact (Option.or_of_isSome hc).symm
      · rw [hc, Option.or_none]
    · exact (Option.or_none).symm
  unfold Session.force
  cases hfirst : session.forced.lookup c.handle with
  | some s =>
    rw [hfirst] at hlookup
    refine ⟨⟨hother hs.lookup (.inl (by simp [← hlookup])), hs.distinct⟩, ?_⟩
    simp [firstSuccess_concat, ← hlookup]
  | none =>
    rw [hfirst] at hlookup
    cases hthunk : c.thunk with
    | error f =>
      refine ⟨⟨hother hs.lookup (.inr (by simp [hthunk, Except.toOption])), hs.distinct⟩, ?_⟩
      simp [firstSuccess_concat, ← hlookup, hthunk, Except.toOption]
    | ok s =>
      refine ⟨⟨fun h => ?_, ?_⟩, ?_⟩
      · rw [List.lookup_append, hs.lookup, firstSuccess_concat, hthunk]
        by_cases heq : c.handle = h
        · simp [heq, Except.toOption]
        · simp [heq, List.lookup_cons, beq_eq_false_iff_ne.mpr (Ne.symm heq)]
      · rw [List.map_append, List.nodup_append]
        refine ⟨hs.distinct, List.nodup_singleton _, ?_⟩
        rintro h hmem _ hc rfl
        obtain rfl := List.mem_singleton.mp hc
        exact lookup_eq_none_iff.mp hfirst hmem
      · simp [firstSuccess_concat, ← hlookup, hthunk, Except.toOption]

/-- The run lemma: induction on the calls made so far. -/
theorem records_afterAll (calls : List Forcing) : (afterAll calls).Records calls := by
  induction calls using List.reverseRecOn with
  | nil => exact records_empty
  | append_singleton calls c ih =>
    rw [afterAll_concat]
    exact (ih.force c).1

/-- A handle has a call that is answered by a schema exactly if one of its thunks does not fail. -/
theorem mem_succeeded_iff : h ∈ succeeded calls ↔ (firstSuccess calls h).isSome := by
  induction calls using List.reverseRecOn with
  | nil => simp [succeeded, firstSuccess]
  | append_singleton calls c ih =>
    have hanswer := ((records_afterAll calls).force c).2
    rw [succeeded_concat, List.mem_append, ih]
    by_cases heq : c.handle = h
    · subst heq
      cases hfirst : firstSuccess (calls ++ [c]) c.handle with
      | some s =>
        rw [hfirst] at hanswer
        simp [hanswer, Except.isOk, Except.toBool]
      | none =>
        rw [hfirst] at hanswer
        obtain ⟨f, -, hforce⟩ := hanswer
        rw [firstSuccess_concat, Option.or_eq_none_iff] at hfirst
        simp [hforce, hfirst.1, Except.isOk, Except.toBool]
    · rw [firstSuccess_concat, if_neg heq, Option.or_none]
      refine or_iff_left fun hmem => heq ?_
      split at hmem
      · exact (List.mem_singleton.mp hmem).symm
      · cases hmem

theorem contains_iff : session.contains h ↔ h ∈ session.forced.map Prod.fst := by
  rw [contains, Option.isSome_iff_ne_none, ne_eq, lookup_eq_none_iff, not_not]

/-- Of all calls that force a lazy schema in a session that was empty, the first that does not fail decides what its
handle stands for. Each call is answered by what the first thunk behind its handle gave that did not fail, up to the
call itself. If there is none, the call fails as its own thunk does and leaves the session as it was, so that the next
call on the handle tries again. In the end exactly the handles are remembered that a call has been answered for by a
schema, and each of them is counted once. -/
theorem forceAll_firstSuccess (calls : List Forcing) :
    (answers calls).length = calls.length ∧
    (∀ before c after, calls = before ++ c :: after → ∃ answer, (answers calls)[before.length]? = some answer ∧
      match firstSuccess (before ++ [c]) c.handle with
      | some s => answer = .ok s
      | none => ∃ f, answer = .error f ∧ c.thunk = .error f ∧ afterAll (before ++ [c]) = afterAll before) ∧
    (afterAll calls).forcedCount = (succeeded calls).toFinset.card ∧
    ∀ h, (afterAll calls).contains h ↔ h ∈ succeeded calls := by
  have hrecords := records_afterAll calls
  have hcontains (h : Handle) : h ∈ (afterAll calls).forced.map Prod.fst ↔ h ∈ succeeded calls := by
    rw [mem_succeeded_iff, ← hrecords.lookup, ← contains_iff, contains]
  refine ⟨length_answers calls, ?_, ?_, fun h => contains_iff.trans (hcontains h)⟩
  · rintro before c after rfl
    have hanswer := ((records_afterAll before).force c).2
    refine ⟨((afterAll before).force c.handle c.thunk).1, ?_, ?_⟩
    · rw [List.append_cons, answers_append, answers_concat, List.append_assoc,
        List.getElem?_append_right (length_answers before).le]
      simp [length_answers]
    · split <;> rename_i hfirst <;> rw [hfirst] at hanswer
      · exact hanswer
      · obtain ⟨f, hthunk, hforce⟩ := hanswer
        exact ⟨f, congrArg Prod.fst hforce, hthunk, by rw [afterAll_concat, hforce]⟩
  · rw [forcedCount, ← List.length_map Prod.fst, ← List.toFinset_card_of_nodup hrecords.distinct]
    refine congrArg Finset.card (Finset.ext fun h => ?_)
    rw [List.mem_toFinset, List.mem_toFinset, hcontains]

/-- The first of two nodes with one handle fails, then the second gives a schema; the first is called again, and would
fail again if its thunk were called. -/
theorem forceAll_firstSuccess_shared :
    let failing : Forcing := ⟨.root 0, .error (.schema .emptyTemplate)⟩
    let giving : Forcing := ⟨.root 0, .ok SessionM.nest⟩
    let calls := [failing, giving, failing]
    calls = [failing, giving] ++ failing :: [] ∧
      (answers calls)[2]? = some (.ok SessionM.nest) ∧ (afterAll calls).forcedCount = 1 ∧
      (afterAll calls).contains (.root 0) := by
  intro failing giving calls
  have hcalls : calls = [failing, giving] ++ failing :: [] := rfl
  obtain ⟨-, hanswers, hcount, hcontains⟩ := forceAll_firstSuccess calls
  obtain ⟨answer, hanswer, hschema⟩ := hanswers _ _ _ hcalls
  have hsucceeded : succeeded calls = [.root 0, .root 0] := rfl
  refine ⟨hcalls, ?_, ?_, ?_⟩
  · have hfirst : firstSuccess ([failing, giving] ++ [failing]) failing.handle = some SessionM.nest := rfl
    rw [hfirst] at hschema
    exact hschema ▸ hanswer
  · rw [hcount, hsucceeded]
    rfl
  · rw [hcontains, hsucceeded]
    exact List.mem_cons_self

end Session
end Schemata
