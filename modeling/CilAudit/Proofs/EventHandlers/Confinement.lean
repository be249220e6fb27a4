import CilAudit.Proofs.EventHandlers.Transparency

set_option autoImplicit false

/-!
Each run sees its own part of the memo. What the rule answers to a call, and what it remembers for the
run of the call, depends on the tokens remembered for that run alone, and the tokens of the other runs
stay as they are.
-/

namespace CilAudit.EventHandlers

namespace Memo

/-- The tokens remembered for the run, in the order in which they came. -/
def tokensOf (memo : Memo) (run : RunId) : List Token :=
  (memo.verified.filter (·.1 == run)).map (·.2)

theorem knows_iff_mem_tokensOf (memo : Memo) (run : RunId) (token : Token) :
    memo.knows run token = true ↔ token ∈ memo.tokensOf run := by
  simp [knows, tokensOf]

theorem cachedIn_eq_length (memo : Memo) (run : RunId) :
    memo.cachedIn run = (memo.tokensOf run).length := by
  rw [cachedIn, tokensOf, List.length_map, List.countP_eq_length_filter]

theorem cached_eq_zero_iff (memo : Memo) : memo.cached = 0 ↔ ∀ run, memo.tokensOf run = [] := by
  rw [cached, List.length_eq_zero_iff]
  constructor
  · intro empty run
    simp [tokensOf, empty]
  · intro none
    apply List.eq_nil_iff_forall_not_mem.mpr
    intro entry member
    have kept : entry.2 ∈ memo.tokensOf entry.1 := by
      apply List.mem_map_of_mem
      simp [member]
    rw [none entry.1] at kept
    cases kept

theorem tokensOf_remember (memo : Memo) (run : RunId) (token : Token) :
    (memo.remember run token).tokensOf run =
      if token ∈ memo.tokensOf run then memo.tokensOf run else memo.tokensOf run ++ [token] := by
  simp only [remember, ← knows_iff_mem_tokensOf]
  split
  · rfl
  · simp [tokensOf]

theorem tokensOf_remember_of_ne {run other : RunId} (apart : other ≠ run) (memo : Memo)
    (token : Token) : (memo.remember run token).tokensOf other = memo.tokensOf other := by
  unfold remember
  split
  · rfl
  · simp [tokensOf, apart.symm]

theorem tokensOf_forget (memo : Memo) (run : RunId) : (memo.forget run).tokensOf run = [] := by
  simp [tokensOf, forget]

theorem tokensOf_forget_of_ne {run other : RunId} (apart : other ≠ run) (memo : Memo) :
    (memo.forget run).tokensOf other = memo.tokensOf other := by
  simp only [tokensOf, forget, List.filter_filter]
  congr 2
  funext entry
  by_cases own : entry.1 = other <;> simp [own, apart]

theorem tokensOf_verify {run run' : RunId} {memo memo' : Memo}
    (agree : memo.tokensOf run = memo'.tokensOf run') (reference : Option Token)
    (findings : List Finding) :
    (memo.verify run reference findings).tokensOf run =
      (memo'.verify run' reference findings).tokensOf run' := by
  unfold verify
  split
  · rename_i token
    rw [tokensOf_remember, tokensOf_remember]
    exact congrArg (fun tokens => if token ∈ tokens then tokens else tokens ++ [token]) agree
  · exact agree

theorem tokensOf_verify_of_ne {run other : RunId} (apart : other ≠ run) (memo : Memo)
    (reference : Option Token) (findings : List Finding) :
    (memo.verify run reference findings).tokensOf other = memo.tokensOf other := by
  unfold verify
  split
  · exact tokensOf_remember_of_ne apart _ _
  · rfl

end Memo

/-- What the operation answers and remembers for its run depends on what is remembered for the run,
under whatever name the run goes. Of other runs it remembers what it did before. -/
structure Confined {α : Type} (op : RunId → Memo → α × Memo) : Prop where
  same : ∀ {run run' : RunId} {memo memo' : Memo}, memo.tokensOf run = memo'.tokensOf run' →
    (op run memo).1 = (op run' memo').1 ∧
      (op run memo).2.tokensOf run = (op run' memo').2.tokensOf run'
  frame : ∀ {run other : RunId} (memo : Memo), other ≠ run →
    (op run memo).2.tokensOf other = memo.tokensOf other

namespace Confined

variable {α β : Type}

theorem answer (a : α) : Confined fun _ memo => (a, memo) where
  same agree := ⟨rfl, agree⟩
  frame _ _ := rfl

/-- One operation after another, which may look at the first one's answer. -/
theorem andThen {op : RunId → Memo → α × Memo} {next : α → RunId → Memo → β × Memo}
    (first : Confined op) (second : ∀ a, Confined (next a)) :
    Confined fun run memo => next (op run memo).1 run (op run memo).2 where
  same agree := by
    obtain ⟨answer, kept⟩ := first.same agree
    rw [answer]
    exact (second _).same kept
  frame memo apart := by
    rw [(second _).frame _ apart, first.frame memo apart]

end Confined

theorem checkEvent_confined (m : Model) (e : EventId) :
    Confined fun run memo => checkEvent m run e memo where
  same := by
    intro run run' memo memo' agree
    have known : memo.knows run = memo'.knows run' := by
      funext token
      rw [Bool.eq_iff_iff, Memo.knows_iff_mem_tokensOf, Memo.knows_iff_mem_tokensOf, agree]
    unfold checkEvent
    rw [known]
    cases m.graph.event? e with
    | none => exact ⟨rfl, agree⟩
    | some node =>
      dsimp only
      cases Option.filter (memo'.knows run') node.decl.type.token? with
      | some token => exact ⟨rfl, agree⟩
      | none =>
        cases assess m e node.decl with
        | assessed findings =>
          exact ⟨rfl, Memo.tokensOf_verify agree node.decl.type.token? findings⟩
        | _ => exact ⟨rfl, agree⟩
  frame := by
    intro run other memo apart
    have step := checkEvent_step m run e memo
    generalize checkEvent m run e memo = result at step
    cases step with
    | verified present new called => exact Memo.tokensOf_verify_of_ne apart memo _ _
    | _ => rfl

theorem checkEvents_confined (m : Model) (events : List EventId) :
    Confined fun run memo => checkEvents m run events memo := by
  induction events with
  | nil => exact .answer ({} : Remarks)
  | cons e rest ih =>
    exact (checkEvent_confined m e).andThen fun remarks => ih.andThen fun later =>
      .answer (remarks.append later)

theorem checkType_confined (m : Model) (t : TypeId) :
    Confined fun run memo => checkType m run t memo := by
  unfold checkType
  split
  · exact .answer Outcome.doesNotApply
  · exact (checkEvents_confined m (m.graph.eventsOf t)).andThen fun remarks =>
      .answer (Outcome.ofRemarks remarks)

theorem finish_confined : Confined finish where
  same := by
    intro run run' memo memo' agree
    refine ⟨?_, ?_⟩
    · simp only [finish, Memo.cachedIn_eq_length, agree]
    · show (memo.forget run).tokensOf run = (memo'.forget run').tokensOf run'
      rw [Memo.tokensOf_forget, Memo.tokensOf_forget]
  frame memo apart := Memo.tokensOf_forget_of_ne apart memo

end CilAudit.EventHandlers
