import GraphLint.Proofs.Deprecation.Hearings
import GraphLint.Proofs.Run.Isolation
import GraphLint.Validator

/-!
# Faults of the rule against deprecated elements are never met

The rule answers with a fault where a position knows an element without what it
belongs to.  Positions can be made for which it does.  No walk makes them: all
positions of a walk are coherent, whatever the type system is like and whatever
other rules skip, and at a coherent position the rule does not fault.
-/

set_option autoImplicit false

namespace GraphLint

/-- The rule against deprecated elements comes to the end of every document. -/
theorem runRules_noDeprecated (schema : TypeSystem) (d : Document) :
    ∃ ds, runRules .position (.start schema) [noDeprecated] d.tree = .ok ds := by
  rw [runRules_eq_hearAll (d.restores schema),
    hearAll_noDeprecated (d.coherent_of_mem_hearings schema)]
  exact ⟨_, rfl⟩

/-- A run that faults does so for another rule. -/
theorem exists_other_of_eq_error {schema : TypeSystem} {d : Document}
    {rules : List (Rule Position)} {fault : Fault}
    (hfault : runDocumentRules schema rules d.tree = .error fault) :
    ∃ r ∈ rules, r ≠ noDeprecated ∧ runDocumentRules schema [r] d.tree = .error fault := by
  obtain ⟨r, hr, halone⟩ := exists_runRules_eq_error (d.restores schema) hfault
  refine ⟨r, hr, ?_, halone⟩
  rintro rfl
  obtain ⟨ds, hds⟩ := runRules_noDeprecated schema d
  rw [hds] at halone
  cases halone

/-- Beside rules that never fault, the rule against deprecated elements comes to the
end. -/
theorem runDocumentRules_of_isTotal (schema : TypeSystem) (d : Document)
    {rules : List (Rule Position)} (hrules : ∀ r ∈ rules, r = noDeprecated ∨ r.IsTotal) :
    ∃ ds, runDocumentRules schema rules d.tree = .ok ds := by
  cases hrun : runDocumentRules schema rules d.tree with
  | ok ds => exact ⟨ds, rfl⟩
  | error fault =>
      obtain ⟨r, hr, hne, halone⟩ := exists_other_of_eq_error hrun
      have htotal : ∀ s ∈ [r], s.IsTotal := by
        intro s hs
        rw [List.mem_singleton.mp hs]
        exact (hrules r hr).resolve_left hne
      obtain ⟨ds, hds⟩ := runRules_of_isTotal (d.restores schema) htotal
      rw [runDocumentRules, hds] at halone
      cases halone

/-- A validation enables no rule over executable documents but this one. -/
theorem eq_noDeprecated_of_mem_enabled {config : Config} {r : Rule Position}
    (hr : r ∈ config.enabled Registry.documentRules) : r = noDeprecated :=
  List.mem_singleton.mp (List.mem_of_mem_filter hr)

/-- No run over a document meets a fault of the rule against deprecated elements. -/
structure FaultFree (schema : TypeSystem) (d : Document) : Prop where
  /-- Wherever a walk can come, what a position knows it knows with what it belongs
  to. -/
  coherent : ∀ h ∈ d.tree.hearings .position (.start schema),
    h.view.Coherent h.event.node.construct
  /-- Rules are shown no other positions, whatever the rules skip. -/
  shown : ∀ rules p,
    jointRun .position (.start schema) (rules.map Rule.recording) d.tree = .ok p →
    List.Forall₂
      (fun r a => ∃ state log, a = ⟨r.recording, (state, log), none⟩ ∧
        ∀ h ∈ log, h.view.Coherent h.event.node.construct)
      rules p.rules
  /-- A run that faults does so for another rule, which faults alone as well. -/
  other : ∀ rules fault, runDocumentRules schema rules d.tree = .error fault →
    ∃ r ∈ rules, r ≠ noDeprecated ∧ runDocumentRules schema [r] d.tree = .error fault
  /-- Beside rules that never fault, it does not fault. -/
  answers : ∀ rules, (∀ r ∈ rules, r = noDeprecated ∨ r.IsTotal) →
    ∃ ds, runDocumentRules schema rules d.tree = .ok ds
  /-- A validation does not fault, whatever is configured. -/
  validates : ∀ config, ∃ ds, validateDocument config schema d.tree = .ok ds

/-- Positions of a walk are coherent, and the rule against deprecated elements does
not fault: not alone, not beside other rules, and not in a validation. -/
theorem Document.faultFree (schema : TypeSystem) (d : Document) : FaultFree schema d where
  coherent := d.coherent_of_mem_hearings schema
  shown rules p hp := by
    refine ((isolated (d.restores schema) rules).told p hp).imp ?_
    rintro r a ⟨state, log, halone⟩
    refine ⟨state, log, halone.result, ?_⟩
    intro h hh
    rw [halone.record] at hh
    exact d.coherent_of_mem_hearings schema h
      (((Listener.ofRule r).heard_sublist _).subset hh)
  other _ _ hfault := exists_other_of_eq_error hfault
  answers _ hrules := runDocumentRules_of_isTotal schema d hrules
  validates config := by
    have hrules : ∀ r ∈ config.enabled Registry.documentRules, r = noDeprecated ∨ r.IsTotal :=
      fun _ hr => Or.inl (eq_noDeprecated_of_mem_enabled hr)
    obtain ⟨ds, hds⟩ := runDocumentRules_of_isTotal schema d hrules
    refine ⟨ds.map config.relabel, ?_⟩
    rw [validateDocument, hds]
    rfl

end GraphLint
