import GraphLint.Proofs.Deprecation.Naming
import GraphLint.Proofs.Validation.Layout
import GraphLint.Proofs.Walk.Ranges

/-!
# Diagnostics point at what they name

In a text without faults a name is a token, and its place holds the characters of the name
(`Source.slice_name`).  Complaints about names blame names, so their places read as what the
message quotes.  Warnings blame the nodes of uses.  A node has the name of what is used
there, and the name stands inside of it (`Row.of_leads`); the alias of a field stands at its
beginning.

Two declarations of a name have the keyword of the later one between them.  Warnings come in
the order of nodes, and so in the order of the text.
-/

set_option autoImplicit false

namespace GraphLint

/-! ## Declared names -/

theorem Definition.name_of_declaration? {d : Definition} {x : Declaration} {n : Node}
    (hx : d.declaration? = some x) (hn : (Phrase.definition d).node? = some n) :
    n.name = some x.name := by
  cases d with
  | directive d =>
      obtain ⟨m, hm, rfl⟩ := Option.map_eq_some_iff.mp hx
      cases hn
      exact hm
  | type d =>
      have hname : (if d.isExtension then none else d.name.map (⟨.type, ·⟩)) = some x := hx
      split at hname
      · cases hname
      · obtain ⟨m, hm, rfl⟩ := Option.map_eq_some_iff.mp hname
        cases hn
        exact hm
  | _ => cases hx

/-- The names that definitions in a row declare are tokens, one behind another and with
other tokens between them. -/
theorem Row.declared {tokens : List Token} {stop : Nat} :
    ∀ {first : Nat} {ds : List Definition}, Row tokens first (ds.map .definition) stop →
      (∀ x ∈ ds.filterMap Definition.declaration?,
        x.name.IsAmong tokens ∧ first < x.name.token) ∧
      (ds.filterMap Definition.declaration?).Pairwise fun x y => x.name.token + 1 < y.name.token
  | _, [], _ => ⟨fun _ hx => absurd hx List.not_mem_nil, .nil⟩
  | first, d :: ds, h => by
      cases h with
      | skip hd _ => cases d <;> cases hd
      | @cons _ _ _ n _ hd hfirst hn hparts hds =>
          obtain ⟨hnames, hordered⟩ := hds.declared
          have hbehind : ∀ y ∈ ds.filterMap Definition.declaration?,
              y.name.IsAmong tokens ∧ first < y.name.token := by
            intro y hy
            obtain ⟨hamong, hlt⟩ := hnames y hy
            have hnonempty := hn.nonempty
            exact ⟨hamong, by omega⟩
          cases hx : d.declaration? with
          | none =>
              rw [List.filterMap_cons_none hx]
              exact ⟨hbehind, hordered⟩
          | some x =>
              have hname := Definition.name_of_declaration? hx hd
              obtain ⟨hamong, -, hstop⟩ := hn.name _ hname
              have hlead := hn.lead trivial _ hname
              rw [List.filterMap_cons_some hx]
              refine ⟨List.forall_mem_cons.mpr ⟨⟨hamong, by omega⟩, hbehind⟩, .cons ?_ hordered⟩
              intro y hy
              have hlt := (hnames y hy).2
              omega

/-! ## Uses in order -/

/-- What a document uses comes in the order in which the nodes begin. -/
theorem Document.uses_ordered {tokens : List Token} {stop : Nat} {d : Document}
    (h : Row tokens 0 [.document d] stop) (schema : TypeSystem) :
    (d.uses schema).Pairwise (·.culprit.place.first ≤ ·.culprit.place.first) := by
  have hculprits : ((d.uses schema).map (·.culprit)).Pairwise (·.place.first ≤ ·.place.first) := by
    rw [← d.used_tree schema, Tree.map_culprit_used]
    exact List.pairwise_map.mpr ((d.nodes_ordered h).filter _)
  rwa [List.pairwise_map] at hculprits

namespace Source

variable {text : String}

/-! ## Complaints about names -/

/-- A complaint about a name, of one kind or of the other, points at places where the name
is written. -/
structure PointsAtNames (text : String) (d : Diagnostic Span) : Prop where
  /-- There is something in each place, and it is in the text. -/
  placed : ∀ c ∈ d.culprits,
    c.place.start < c.place.stop ∧ c.place.stop ≤ (bytesOf text).length
  /-- In each place stands the name that the message quotes.  Of a name that is declared
  again, the first place ends before the last one begins. -/
  named : ∃ (s : Subject) (name : String), d.rule = s.ruleName ∧
    (∀ c ∈ d.culprits, c.place.slice (bytesOf text) = bytesOf name) ∧
    (d.message = s.alreadyExists name ∧ d.culprits.length = 1 ∨
      d.message = s.onlyOne name ∧ ∃ first last, d.culprits = [first, last] ∧
        first.place.stop < last.place.start)

theorem pointsAtNames_of_mem_complaints (hplain : Plain text) {schema : Option TypeSystem}
    {d : Diagnostic Extent}
    (hd : d ∈ Declaration.complaints schema [] (read text).document.declarations) :
    PointsAtNames text (d.map (read text).span) := by
  obtain ⟨earlier, x, later, hsplit, hcomplaint⟩ := Declaration.complaint?_of_mem_complaints [] _ hd
  obtain ⟨-, -, -, hdefinitions⟩ := hplain.row.of_mem (List.mem_singleton_self _) rfl
  obtain ⟨hnames, hordered⟩ := hdefinitions.declared
  change ∀ x ∈ (read text).document.declarations, _ at hnames
  change (read text).document.declarations.Pairwise _ at hordered
  rw [List.nil_append] at hsplit
  rw [hsplit] at hnames hordered
  have hx := (hnames x (by simp)).1
  rcases Declaration.cases_of_complaint? hcomplaint with rfl | ⟨first, hmem, hfirst, rfl⟩
  · refine ⟨?_, x.subject, x.name.text, rfl, ?_, .inl ⟨rfl, rfl⟩⟩
    · exact List.forall_mem_singleton.mpr (span_bounds hplain hx.within)
    · exact List.forall_mem_singleton.mpr (slice_name hplain hx)
  · obtain ⟨-, htext⟩ := of_decide_eq_true hfirst
    have hfirst := (hnames first (List.mem_append_left _ hmem)).1
    have hlt : first.name.token + 1 < x.name.token :=
      (List.pairwise_append.mp hordered).2.2 first hmem x List.mem_cons_self
    refine ⟨?_, x.subject, x.name.text, rfl, ?_, .inr ⟨rfl, _, _, rfl, ?_⟩⟩
    · refine List.forall_mem_cons.mpr ⟨span_bounds hplain hfirst.within, ?_⟩
      exact List.forall_mem_singleton.mpr (span_bounds hplain hx.within)
    · refine List.forall_mem_cons.mpr ⟨htext ▸ slice_name hplain hfirst, ?_⟩
      exact List.forall_mem_singleton.mpr (slice_name hplain hx)
    · exact span_stop_lt_start hplain hfirst.within hx.within hlt

/-! ## Warnings of uses -/

/-- A warning of a deprecated element points at one place, that of a phrase which uses the
element. -/
structure PointsAtUse (text : String) (d : Diagnostic Span) : Prop where
  /-- It is a warning of this kind. -/
  rule : d.rule = "no_deprecated"
  /-- The place is that of a node of the document, which uses the element.  The name of the
  element is written in it, and the alias of a field at its beginning. -/
  used : ∃ (path : List Nat) (route : List Node) (p : Phrase) (n : Node) (e : Element)
      (place : Span),
    (Phrase.document (read text).document).Leads [] path route p ∧ p.node? = some n ∧
    d.culprits = [⟨n.kind, place⟩] ∧ place = (read text).span n.extent ∧
    place.start < place.stop ∧ place.stop ≤ (bytesOf text).length ∧
    e.objection? = some d.message ∧ e.WrittenAt n ∧
    (∃ inner : Span, place.start ≤ inner.start ∧ inner.stop ≤ place.stop ∧
      inner.slice (bytesOf text) = bytesOf e.name) ∧
    ∀ a, p.alias? = some a → ∃ inner : Span, inner.start = place.start ∧
      inner.stop ≤ place.stop ∧ inner.slice (bytesOf text) = bytesOf a.text

theorem pointsAtUse_of_mem_warnings (hplain : Plain text) {schema : TypeSystem}
    {d : Diagnostic Extent}
    (hd : d ∈ ((read text).document.uses schema).filterMap Use.warning?) :
    PointsAtUse text (d.map (read text).span) := by
  obtain ⟨u, hu, hwarning⟩ := List.mem_filterMap.mp hd
  obtain ⟨message, hmessage, rfl⟩ := Option.map_eq_some_iff.mp hwarning
  obtain ⟨e, he, hobjection⟩ := Option.bind_eq_some_iff.mp hmessage
  rw [← Document.used_tree] at hu
  obtain ⟨n, hn, hculprit, hwritten⟩ := Tree.exists_of_mem_used _ _ hu
  obtain ⟨path, route, p, hleads, hp⟩ := (read text).document.exists_phrase hn
  obtain ⟨-, hstop, hstands⟩ := hplain.row.of_leads (List.mem_singleton_self _) hleads hp
  have hplace : n.extent.Within (tokens text).length := ⟨hstands.nonempty, hstop⟩
  obtain ⟨hlt, hle⟩ := span_bounds hplain hplace
  obtain ⟨m, hm, htext⟩ := Option.map_eq_some_iff.mp (hwritten e he).nameText
  obtain ⟨hamong, hmfirst, hmstop⟩ := hstands.name m hm
  refine ⟨rfl, path, route, p, n, e, _, hleads, hp, ?_, rfl, hlt, hle, hobjection,
    hwritten e he, ⟨(read text).span m.extent, ?_, ?_, ?_⟩, fun a ha => ?_⟩
  · show [u.culprit.map _] = _
    rw [hculprit]
    rfl
  · exact span_start_le hplain hplace hamong.within hmfirst
  · exact span_stop_le hplain hamong.within hplace hmstop
  · rw [slice_name hplain hamong, htext]
  · obtain ⟨hamong, htoken⟩ := hstands.aliased a ha
    refine ⟨(read text).span a.extent, Nat.le_antisymm ?_ ?_, ?_, slice_name hplain hamong⟩
    · exact span_start_le hplain hamong.within hplace (Nat.le_of_eq htoken)
    · exact span_start_le hplain hplace hamong.within (Nat.le_of_eq htoken.symm)
    · have hlast : a.token < n.extent.stop := htoken ▸ hplace.nonempty
      exact span_stop_le hplain hamong.within hplace hlast

/-- Of two diagnostics of a run the later one does not begin earlier. -/
def BeginsBehind (d e : Diagnostic Span) : Prop :=
  ∀ c ∈ d.culprits, ∀ c' ∈ e.culprits, c.place.start ≤ c'.place.start

theorem warnings_ordered (hplain : Plain text) (schema : TypeSystem) :
    (((read text).document.uses schema).filterMap Use.warning?).Pairwise fun d e =>
      BeginsBehind (d.map (read text).span) (e.map (read text).span) := by
  have hwithin : ∀ u ∈ (read text).document.uses schema,
      u.culprit.place.Within (tokens text).length := by
    intro u hu
    rw [← Document.used_tree] at hu
    obtain ⟨n, hn, hculprit, -⟩ := Tree.exists_of_mem_used _ _ hu
    rw [hculprit]
    exact hplain.placed n hn
  have hordered : ((read text).document.uses schema).Pairwise fun u v =>
      ((read text).span u.culprit.place).start ≤ ((read text).span v.culprit.place).start :=
    (Document.uses_ordered hplain.row schema).imp_of_mem fun hu hv hle =>
      span_start_le hplain (hwithin _ hu) (hwithin _ hv) hle
  refine List.Pairwise.filterMap _ ?_ hordered
  intro u v hle d hd e he c hc c' hc'
  obtain ⟨_, -, rfl⟩ := Option.map_eq_some_iff.mp hd
  obtain ⟨_, -, rfl⟩ := Option.map_eq_some_iff.mp he
  obtain rfl := List.mem_singleton.mp hc
  obtain rfl := List.mem_singleton.mp hc'
  exact hle

/-! ## Validations -/

/-- What the diagnostics of a text point at. -/
structure Pointing (text : String) : Prop where
  /-- A validation as a type system document ends, with diagnostics that point at names. -/
  schema : ∀ (config : Config) (schema : Option TypeSystem), ∃ ds,
    validateSchema config schema (read text).document.tree = .ok ds ∧
    ∀ d ∈ (read text).locate ds, PointsAtNames text d
  /-- A validation as an executable document ends, with diagnostics that point at uses, in
  the order of the text. -/
  document : ∀ (config : Config) (schema : TypeSystem), ∃ ds,
    validateDocument config schema (read text).document.tree = .ok ds ∧
    (∀ d ∈ (read text).locate ds, PointsAtUse text d) ∧
    ((read text).locate ds).Pairwise BeginsBehind

/-- What is located was reported, up to how much it matters. -/
theorem exists_of_mem_locate {config : Config} {ds : List (Diagnostic Extent)}
    {e : Diagnostic Span} (he : e ∈ (read text).locate (ds.filterMap config.judge)) :
    ∃ d ∈ ds, ∃ severity, e = { d.map (read text).span with severity } := by
  obtain ⟨judged, hjudged, rfl⟩ := List.mem_map.mp he
  obtain ⟨d, hd, hjudge⟩ := List.mem_filterMap.mp hjudged
  obtain ⟨severity, rfl⟩ := Config.eq_of_judge hjudge
  exact ⟨d, hd, severity, rfl⟩

/-- Of a text without faults diagnostics point at what they speak of. -/
theorem diagnostics_point (text : String) (h : (read text).isWellFormed = true) :
    Pointing text := by
  have hplain := plain h
  refine ⟨fun config schema => ?_, fun config schema => ?_⟩
  · have hreported := (namesReported schema (read text).document).reported
    refine ⟨_, by rw [(Document.filtered_validateSchema _ schema).judged, hreported]; rfl, ?_⟩
    intro _ hlocated
    obtain ⟨d, hd, _, rfl⟩ := exists_of_mem_locate hlocated
    have hpoints := pointsAtNames_of_mem_complaints hplain hd
    exact ⟨hpoints.placed, hpoints.named⟩
  · have hwarnings := runDocumentRules_noDeprecated schema (read text).document
    have hfiltered := (Document.filtered_validateDocument (read text).document schema).judged config
    refine ⟨_, by rw [hfiltered]; exact congrArg _ hwarnings, ?_, ?_⟩
    · intro _ hlocated
      obtain ⟨d, hd, _, rfl⟩ := exists_of_mem_locate hlocated
      have hpoints := pointsAtUse_of_mem_warnings hplain hd
      exact ⟨hpoints.rule, hpoints.used⟩
    · unfold locate
      rw [List.pairwise_map]
      refine List.Pairwise.filterMap _ ?_ (warnings_ordered hplain schema)
      intro d e hbehind d' hd' e' he'
      obtain ⟨_, rfl⟩ := Config.eq_of_judge hd'
      obtain ⟨_, rfl⟩ := Config.eq_of_judge he'
      exact hbehind

/-- Aliased fields that a schema may have deprecated, and names that are declared twice, with
letters of several bytes in front of them. -/
def crowdedText : String :=
  "# für\n\x7b neu : alt(b: [\"ß\", \x7bc: D\x7d]) , alt \x7d \"é\" type Doppelt \x7b x: Y \x7d" ++
  " directive @twice on FIELD\n\"é\" enum Doppelt \x7b V \x7d\textend type Doppelt @twice" ++
  " directive @twice(a: B = C) on QUERY"

theorem diagnostics_point_crowded :
    (read crowdedText).isWellFormed = true ∧ Pointing crowdedText :=
  have h : (read crowdedText).isWellFormed = true := by decide +kernel
  ⟨h, diagnostics_point _ h⟩

/-- Both declarations of `Doppelt` and of `@twice` are blamed. -/
example :
    (validateSchema .default none (read crowdedText).document.tree).map
        (fun ds => ((read crowdedText).locate ds).map (·.culprits.map (·.place))) =
      .ok [[⟨56, 63⟩, ⟨109, 116⟩], [⟨84, 89⟩, ⟨161, 166⟩]] := by
  decide +kernel

end Source

end GraphLint
