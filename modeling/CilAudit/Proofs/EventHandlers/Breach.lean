import CilAudit.Rule.EventHandlers

set_option autoImplicit false

/-!
When a requirement on delegates is breached, and in which words. The words decide how severe the breach is:
only a parameter of an unexpected name is a breach of low severity, and no other breach is worded as one.
-/

namespace CilAudit.EventHandlers

variable {m : Model} {invoke : MethodSig} {message : String}

theorem returnsVoid_eq_some_iff :
    returnsVoid m invoke = some message ↔
      m.isWellKnown invoke.ret.type .void = false ∧
        "The delegate should return void, not " ++ m.fullName invoke.ret.type = message := by
  simp [returnsVoid]

theorem hasTwoParams_eq_some_iff :
    hasTwoParams m invoke = some message ↔
      invoke.params.length ≠ 2 ∧ "The delegate should have 2 parameters" = message := by
  simp [hasTwoParams]

theorem senderIsObject_eq_some_iff :
    senderIsObject m invoke = some message ↔
      ∃ sender, invoke.param? 0 = some sender ∧ m.isWellKnown sender.type .object = false ∧
        "The first parameter should have an object, not " ++ m.fullName sender.type = message := by
  simp [senderIsObject, Option.bind_eq_some_iff]

theorem argsAreEventArgs_eq_some_iff :
    argsAreEventArgs m invoke = some message ↔
      ∃ args, invoke.param? 1 = some args ∧ m.inheritsFrom args.type .eventArgs = some false ∧
        "The second parameter should be a subclass of System.EventArgs" = message := by
  simp [argsAreEventArgs, Option.bind_eq_some_iff]

theorem isNamed_eq_some_iff {position : Nat} {expected : String} :
    isNamed position expected m invoke = some message ↔
      ∃ param, invoke.param? position = some param ∧ param.name ≠ expected ∧
        "The expected name is " ++ expected ++ ", not " ++ param.name = message := by
  simp [isNamed, Option.bind_eq_some_iff]

/-- How severe a breach of the given wording is. -/
def severityOf (message : String) : Severity :=
  if Text.startsWith message "The expected name is " then .low else .medium

theorem severityOf_isNamed {position : Nat} {expected : String}
    (breach : isNamed position expected m invoke = some message) : severityOf message = .low := by
  obtain ⟨param, -, -, rfl⟩ := isNamed_eq_some_iff.mp breach
  have starts : Text.startsWith ("The expected name is " ++ expected ++ ", not " ++ param.name)
      "The expected name is " = true := by
    rw [Text.startsWith, List.isPrefixOf_iff_prefix, String.append_assoc, String.append_assoc,
      String.toList_append]
    exact List.prefix_append _ _
  rw [severityOf, if_pos starts]

theorem severity_eq_of_breach {r : Requirement} (member : r ∈ requirements)
    (breach : r.breach? m invoke = some message) : r.severity = severityOf message := by
  simp only [requirements, List.mem_cons, List.not_mem_nil, or_false] at member
  rcases member with rfl | rfl | rfl | rfl | rfl | rfl
  · obtain ⟨-, rfl⟩ := returnsVoid_eq_some_iff.mp breach
    rw [severityOf, Text.startsWith, String.toList_append]
    rfl
  · obtain ⟨-, rfl⟩ := (hasTwoParams_eq_some_iff (m := m)).mp breach
    rfl
  · obtain ⟨sender, -, -, rfl⟩ := senderIsObject_eq_some_iff.mp breach
    rw [severityOf, Text.startsWith, String.toList_append]
    rfl
  · obtain ⟨args, -, -, rfl⟩ := argsAreEventArgs_eq_some_iff.mp breach
    rfl
  · exact (severityOf_isNamed (m := m) breach).symm
  · exact (severityOf_isNamed (m := m) breach).symm

end CilAudit.EventHandlers
