import Mathlib.Data.Set.Card
import CilAudit.Proofs.EventHandlers.Confinement
import CilAudit.Proofs.Model.Ownership

set_option autoImplicit false

/-!
How often delegates are verified. One that conforms is verified once in a run for each token that names it,
because the token is remembered. One that breaches a requirement, or that is named without a token, is never
remembered, so it is verified for each event anew. Main statement: `verifications_exact`.
-/

namespace CilAudit.EventHandlers

instance (d : Callable) (m : Model) : Decidable (d.Conforms m) :=
  inferInstanceAs (Decidable (faults m d.invoke.decl.signature = []))

/-- The event names by this token a delegate that can be called and conforms. -/
def NamesValid (m : Model) (token : Token) (e : EventId) : Prop :=
  ∃ node ∈ m.graph.event? e, node.decl.type.token? = some token ∧
    ∃ d ∈ callable? m node.decl.type, d.Conforms m

/-- The event's delegate can be called, but it breaches a requirement or has no token in the event's type. -/
def NeverSettled (m : Model) (e : EventId) : Prop :=
  ∃ node ∈ m.graph.event? e, ∃ d ∈ callable? m node.decl.type,
    ¬ d.Conforms m ∨ node.decl.type.token? = none

instance (m : Model) (token : Token) (e : EventId) : Decidable (NamesValid m token e) :=
  inferInstanceAs (Decidable (∃ node ∈ m.graph.event? e, node.decl.type.token? = some token ∧
    ∃ d ∈ callable? m node.decl.type, d.Conforms m))

instance (m : Model) (e : EventId) : Decidable (NeverSettled m e) :=
  inferInstanceAs (Decidable (∃ node ∈ m.graph.event? e, ∃ d ∈ callable? m node.decl.type,
    ¬ d.Conforms m ∨ node.decl.type.token? = none))

section Kinds

variable {m : Model} {e : EventId} {node : EventNode} (present : m.graph.event? e = some node)
include present

theorem namesValid_iff {token : Token} :
    NamesValid m token e ↔ node.decl.type.token? = some token ∧
      ∃ d, callable? m node.decl.type = some d ∧ d.Conforms m := by
  simp [NamesValid, present]

theorem neverSettled_iff :
    NeverSettled m e ↔ ∃ d, callable? m node.decl.type = some d ∧
      (¬ d.Conforms m ∨ node.decl.type.token? = none) := by
  simp [NeverSettled, present]

end Kinds

namespace Memo

theorem verifications_verify (memo : Memo) (run : RunId) (reference : Option Token)
    (findings : List Finding) :
    (memo.verify run reference findings).verifications = memo.verifications + 1 := by
  unfold verify
  split
  · simp only [remember]
    split <;> rfl
  · rfl

/-- A delegate that passes and was named by a token not known yet is remembered. -/
theorem tokensOf_verify_nil {memo : Memo} {run : RunId} {token : Token}
    (new : memo.knows run token = false) :
    (memo.verify run (some token) []).tokensOf run = memo.tokensOf run ++ [token] := by
  have absent : token ∉ memo.tokensOf run := by
    rw [← knows_iff_mem_tokensOf, new]
    exact Bool.false_ne_true
  have kept := tokensOf_remember { memo with verifications := memo.verifications + 1 } run token
  exact kept.trans (if_neg absent)

/-- Nothing is remembered of a delegate that fails or is named without a token. -/
theorem tokensOf_verify_of_unsettled (memo : Memo) (run : RunId) {reference : Option Token}
    {findings : List Finding} (unsettled : findings ≠ [] ∨ reference = none) :
    (memo.verify run reference findings).tokensOf run = memo.tokensOf run := by
  unfold verify
  split
  · simp at unsettled
  · rfl

end Memo

/-- What checking these events has done to the memo: tokens of valid delegates were added, each once, and each
verification added a token or was for an event that is never settled. -/
structure Tallied (m : Model) (run : RunId) (events : List EventId) (memo after : Memo) : Prop where
  distinct : (memo.tokensOf run).Nodup → (after.tokensOf run).Nodup
  tokens : ∀ token, token ∈ after.tokensOf run ↔
    token ∈ memo.tokensOf run ∨ ∃ e ∈ events, NamesValid m token e
  balance : after.verifications + (memo.tokensOf run).length =
    memo.verifications + (after.tokensOf run).length + events.countP (NeverSettled m ·)

namespace Tallied

variable {m : Model} {run : RunId} {memo middle after : Memo}

theorem nil : Tallied m run [] memo memo where
  distinct := id
  tokens := by simp
  balance := by simp

/-- The event changed nothing: its delegate is not to be verified, or was before. -/
theorem unchanged {e : EventId} (settled : ¬ NeverSettled m e)
    (known : ∀ token, NamesValid m token e → token ∈ memo.tokensOf run) :
    Tallied m run [e] memo memo where
  distinct := id
  tokens token := by
    simp only [List.mem_singleton, exists_eq_left]
    exact ⟨.inl, fun held => held.elim id (known token)⟩
  balance := by simp [settled]

/-- The event's delegate was verified, but not remembered. -/
theorem repeated {e : EventId} (unsettled : NeverSettled m e) (nameless : ∀ token, ¬ NamesValid m token e)
    (counted : after.verifications = memo.verifications + 1)
    (kept : after.tokensOf run = memo.tokensOf run) : Tallied m run [e] memo after where
  distinct start := by rwa [kept]
  tokens token := by simp [kept, nameless]
  balance := by
    rw [counted, kept, List.countP_singleton, if_pos (decide_eq_true unsettled)]
    omega

/-- The event's delegate was verified and is remembered by its token. -/
theorem remembered {e : EventId} {token : Token} (settled : ¬ NeverSettled m e)
    (names : ∀ other, NamesValid m other e ↔ other = token) (new : token ∉ memo.tokensOf run)
    (counted : after.verifications = memo.verifications + 1)
    (added : after.tokensOf run = memo.tokensOf run ++ [token]) : Tallied m run [e] memo after where
  distinct start := by
    rw [added, ← List.concat_eq_append]
    exact start.concat new
  tokens other := by simp [added, names]
  balance := by
    have idle : List.countP (NeverSettled m ·) [e] = 0 := by simp [settled]
    rw [counted, added, idle, List.length_append, List.length_singleton]
    omega

theorem append {front back : List EventId} (first : Tallied m run front memo middle)
    (second : Tallied m run back middle after) : Tallied m run (front ++ back) memo after where
  distinct start := second.distinct (first.distinct start)
  tokens token := by
    rw [second.tokens, first.tokens, or_assoc]
    simp only [List.mem_append, or_and_right, exists_or]
  balance := by
    have balance := first.balance
    have further := second.balance
    rw [List.countP_append]
    omega

end Tallied

/-- One event: every way in which its check can go is accounted for. -/
theorem EventStep.tallied {m : Model} {run : RunId} {e : EventId} {memo : Memo}
    {result : Remarks × Memo} (sound : Sound m run memo) (step : EventStep m run e memo result) :
    Tallied m run [e] memo result.2 := by
  cases step with
  | absent missing =>
    apply Tallied.unchanged
    · simp [NeverSettled, missing]
    · simp [NamesValid, missing]
  | @known node token present names known notice =>
    obtain ⟨d, called, conforms⟩ := sound token known
    rw [← callable?_of_token m names] at called
    apply Tallied.unchanged
    · rw [neverSettled_iff present]
      rintro ⟨other, also, breach | bare⟩
      · rw [called] at also
        cases also
        exact breach conforms
      · rw [names] at bare
        cases bare
    · intro other valid
      obtain ⟨also, -⟩ := (namesValid_iff present).mp valid
      rw [names] at also
      cases also
      exact (memo.knows_iff_mem_tokensOf run token).mp known
  | @skipped node present new idle notice =>
    apply Tallied.unchanged
    · simp [neverSettled_iff present, idle]
    · simp [namesValid_iff present, idle]
  | @verified node d present new called =>
    have valid (token : Token) :
        NamesValid m token e ↔ node.decl.type.token? = some token ∧ d.Conforms m := by
      simp [namesValid_iff present, called]
    have never : NeverSettled m e ↔ ¬ d.Conforms m ∨ node.decl.type.token? = none := by
      simp [neverSettled_iff present, called]
    have counted := memo.verifications_verify run node.decl.type.token? (d.reports m e node.decl)
    by_cases unsettled : NeverSettled m e
    · have reason := never.mp unsettled
      have kept := memo.tokensOf_verify_of_unsettled run
        (reason.imp_left (mt (d.reports_eq_nil_iff m e node.decl).mp))
      refine .repeated unsettled ?_ counted kept
      intro token names
      obtain ⟨named, conforms⟩ := (valid token).mp names
      rcases reason with breach | bare
      · exact breach conforms
      · rw [named] at bare
        cases bare
    · obtain ⟨conforms, named⟩ := not_or.mp (mt never.mpr unsettled)
      obtain ⟨token, named⟩ := Option.ne_none_iff_exists'.mp named
      have clean := (d.reports_eq_nil_iff m e node.decl).mpr (not_not.mp conforms)
      have unknown := new token named
      rw [named, clean] at counted ⊢
      refine .remembered unsettled ?_ ?_ counted (Memo.tokensOf_verify_nil unknown)
      · intro other
        simp [valid, named, not_not.mp conforms, eq_comm]
      · rw [← Memo.knows_iff_mem_tokensOf, unknown]
        exact Bool.false_ne_true

theorem checkEvents_tallied (m : Model) (run : RunId) (events : List EventId) (memo : Memo)
    (sound : Sound m run memo) :
    Tallied m run events memo (checkEvents m run events memo).2 := by
  induction events generalizing memo with
  | nil => exact .nil
  | cons e rest ih =>
    have step := checkEvent_step m run e memo
    have later := ih (checkEvent m run e memo).2 (step.sound sound)
    rw [checkEvents_cons]
    exact (step.tallied sound).append later

theorem checkType_tallied (m : Model) (run : RunId) (t : TypeId) (memo : Memo)
    (sound : Sound m run memo) :
    Tallied m run (m.graph.eventsOf t) memo (checkType m run t memo).2 := by
  unfold checkType
  split
  · rename_i none
    rw [none]
    exact .nil
  · exact checkEvents_tallied m run (m.graph.eventsOf t) memo sound

theorem checkTypes_tallied (m : Model) (run : RunId) (types : List TypeId) (memo : Memo)
    (sound : Sound m run memo) :
    Tallied m run (types.flatMap m.graph.eventsOf) memo (checkTypes m run types memo).2 := by
  induction types generalizing memo with
  | nil => exact .nil
  | cons t rest ih =>
    obtain ⟨-, -, kept⟩ := checkType_transparent m run t memo sound
    have later := ih (checkType m run t memo).2 kept
    rw [checkTypes_cons, List.flatMap_cons]
    exact (checkType_tallied m run t memo sound).append later

theorem Memo.tokensOf_eq_nil_iff {memo : Memo} {run : RunId} :
    memo.tokensOf run = [] ↔ ∀ token, memo.knows run token = false := by
  simp only [List.eq_nil_iff_forall_not_mem, ← knows_iff_mem_tokensOf, Bool.not_eq_true]

theorem ncard_eq_length {α : Type} [DecidableEq α] {s : Set α} {items : List α} (distinct : items.Nodup)
    (members : ∀ x, x ∈ items ↔ x ∈ s) : s.ncard = items.length := by
  have same : s = items.toFinset := by
    ext x
    simp [members]
  rw [same, Set.ncard_coe_finset, List.toFinset_card_of_nodup distinct]

/-- A run over different types of a draft made by requests, in any order, whatever was verified before in other
runs. It verifies a delegate for each token by which an event of these types names a valid one, and for each
event of these types that is never settled. What it knows before it finishes are these tokens, and nothing of
the run is left afterwards. -/
theorem verifications_exact (d : Draft) (made : d.Made) (run : RunId) (memo : Memo)
    (fresh : ∀ token, memo.knows run token = false) (types : List TypeId) (distinct : types.Nodup) :
    let m := d.model
    let checked := (checkTypes m run types (rule.start m run memo)).2
    let finished := (rule.finish run checked).2
    let valid := {token | ∃ t ∈ types, ∃ e ∈ m.graph.eventsOf t, NamesValid m token e}
    let unsettled := {e | (∃ t ∈ types, e ∈ m.graph.eventsOf t) ∧ NeverSettled m e}
    finished.verifications = memo.verifications + valid.ncard + unsettled.ncard ∧
      ((∀ token, checked.knows run token = true ↔ token ∈ valid) ∧ checked.cachedIn run = valid.ncard) ∧
      ∀ token, finished.knows run token = false := by
  intro m checked finished valid unsettled
  have empty : memo.tokensOf run = [] := Memo.tokensOf_eq_nil_iff.mpr fresh
  have tallied : Tallied m run (types.flatMap m.graph.eventsOf) memo checked :=
    checkTypes_tallied m run types memo (.of_fresh fresh m)
  have tokens (token : Token) : token ∈ checked.tokensOf run ↔ token ∈ valid := by
    simp only [tallied.tokens, empty, List.not_mem_nil, false_or, List.mem_flatMap, valid,
      Set.mem_ofPred_eq]
    grind
  have cached : valid.ncard = (checked.tokensOf run).length :=
    ncard_eq_length (tallied.distinct (by simp [empty])) tokens
  have events : (types.flatMap m.graph.eventsOf).Nodup :=
    Graph.nodup_listed made.grown.allotted.events EventId.mk.inj distinct
  have repeated : unsettled.ncard = (types.flatMap m.graph.eventsOf).countP (NeverSettled m ·) := by
    rw [List.countP_eq_length_filter]
    refine ncard_eq_length (events.filter _) fun e => ?_
    simp [unsettled]
  refine ⟨?_, ⟨?_, ?_⟩, ?_⟩
  · have balance := tallied.balance
    rw [empty, List.length_nil, ← cached, ← repeated] at balance
    exact balance
  · intro token
    rw [Memo.knows_iff_mem_tokensOf, tokens]
  · rw [Memo.cachedIn_eq_length, cached]
  · exact Memo.tokensOf_eq_nil_iff.mp (Memo.tokensOf_forget checked run)

/-- Two types with events, for a run that comes to the second one first. They name a valid delegate by its own
token, twice, and by that of a reference; a delegate that returns a number, twice; and a class by a signature
without a token. -/
def mixedDraft : Draft :=
  let args := ({ stamp := 0 } : Draft).referWellKnown .eventArgs
  let invoke (returns : TypeSig) :=
    ((MethodDefinition.invoke returns).withParam "sender" (.prim .object)).withParam "e" args.1
  let valid := (TypeDefinition.ofDelegate "Demo" "Handler").withMethod (invoke (.prim .void))
  let broken := (TypeDefinition.ofDelegate "Demo" "Counter").withMethod (invoke (.prim .i4))
  let text := (TypeDefinition.ofClass "System" "String").withMethod (invoke (.prim .void))
  let draft := (((args.2.define valid).2.define broken).2.define text).2
  let reference := draft.refer "Demo" "Handler"
  let source := (((TypeDefinition.ofClass "Demo" "Source").withEvent
    ⟨"Opened", .classType ⟨0x02000002⟩⟩).withEvent ⟨"Counted", .classType ⟨0x02000003⟩⟩).withEvent
    ⟨"Named", .prim .string⟩
  let sink := (((TypeDefinition.ofClass "Demo" "Sink").withEvent
    ⟨"Closed", .generic (.classType ⟨0x02000002⟩) []⟩).withEvent ⟨"Moved", reference.1⟩).withEvent
    ⟨"Summed", .valueType ⟨0x02000003⟩⟩
  ((reference.2.define source).2.define sink).2

theorem verifications_exact_mixedDraft :
    let m := mixedDraft.model
    let types : List TypeId := [⟨8⟩, ⟨7⟩]
    mixedDraft.Made ∧ types.Nodup ∧
      {token | ∃ t ∈ types, ∃ e ∈ m.graph.eventsOf t, NamesValid m token e}.ncard = 2 ∧
      {e | (∃ t ∈ types, e ∈ m.graph.eventsOf t) ∧ NeverSettled m e}.ncard = 3 ∧
      (rule.finish .first (checkTypes m .first types {}).2).2.verifications = 5 := by
  intro m types
  have made : mixedDraft.Made :=
    ⟨0, .tail (.tail (.tail (.tail (.tail (.tail (.tail .refl (.referWellKnown .eventArgs)) (.define _))
      (.define _)) (.define _)) (.refer _ _)) (.define _)) (.define _)⟩
  have distinct : types.Nodup := by decide
  have total : (rule.finish .first (checkTypes m .first types {}).2).2.verifications = 5 := by
    decide +kernel
  have known : (checkTypes m .first types {}).2.cachedIn .first = 2 := by decide +kernel
  obtain ⟨sum, ⟨-, cached⟩, -⟩ :=
    verifications_exact mixedDraft made .first {} (fun _ => rfl) types distinct
  have two := cached.symm.trans known
  have five := sum.symm.trans total
  rw [two] at five
  exact ⟨made, distinct, two, Nat.add_left_cancel five, total⟩

end CilAudit.EventHandlers
