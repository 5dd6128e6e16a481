import GraphLint.Proofs.Deprecation.Growth
import GraphLint.Proofs.Names.Unique
import GraphLint.Proofs.Source.Places
import GraphLint.Proofs.Validation.Filtering
import GraphLint.TypeSystem.Build

/-!
# Layout does not influence validation

Two texts without faults that have the same tokens say the same, so whatever is made of
them is the same: the type systems that they make up, and the diagnostics of a validation,
which speak of tokens by their numbers.  Only when a diagnostic is located does layout come
in.  A located node begins where one of the tokens begins and ends where one ends
(`Source.Covers`), and in both texts these are the same tokens.

Rules blame nodes that they hear of and names that are declared, and both span tokens of the
text (`Source.Plain`).
-/

set_option autoImplicit false

namespace GraphLint

/-! ## Places of tokens -/

namespace Source

/-- A place in a text that begins with its token number `first` and ends with its token
number `last`.  What is ignored stands at neither edge. -/
structure Covers (text : String) (first last : Nat) (place : Span) : Prop where
  /-- The tokens are in order. -/
  order : first ≤ last
  /-- It begins where a token begins. -/
  start : ∃ x, (Lexer.lexemes (Lexer.pieces text))[first]? = some x ∧ place.start = x.span.start
  /-- It ends where a token ends. -/
  stop : ∃ x, (Lexer.lexemes (Lexer.pieces text))[last]? = some x ∧ place.stop = x.span.stop
  /-- Whatever else begins or ends there is a token. -/
  edges : ∀ p ∈ Lexer.pieces text,
    p.span.start = place.start ∨ p.span.stop = place.stop → ∃ token, p.reading = .token token

/-- A run of tokens covers the place from the first of them to the last. -/
theorem covers_span {text : String} (hplain : Plain text) {e : Extent}
    (he : e.Within (tokens text).length) :
    Covers text e.first (e.stop - 1) ((read text).span e) := by
  obtain ⟨x, y, hx, hy, hspan⟩ := span_eq hplain he
  rw [hspan]
  refine ⟨Nat.le_sub_one_of_lt he.nonempty, ⟨x, hx, rfl⟩, ⟨y, hy, rfl⟩, ?_⟩
  rintro p hp (hedge | hedge)
  · have htoken := Lexer.mem_lexemes.mp (List.mem_of_getElem? hx)
    obtain rfl := (Lexer.tile_pieces text).eq_of_edge hp htoken (.inl hedge)
    exact ⟨_, rfl⟩
  · have htoken := Lexer.mem_lexemes.mp (List.mem_of_getElem? hy)
    obtain rfl := (Lexer.tile_pieces text).eq_of_edge hp htoken (.inr hedge)
    exact ⟨_, rfl⟩

end Source

/-! ## What is blamed -/

/-- All nodes that a diagnostic blames span tokens of a text of `size` tokens. -/
def Diagnostic.Placed (size : Nat) (d : Diagnostic Extent) : Prop :=
  ∀ c ∈ d.culprits, c.place.Within size

/-- A configuration changes nothing about a diagnostic but how much it matters. -/
theorem Config.eq_of_judge {c : Config} {d e : Diagnostic Extent} (h : c.judge d = some e) :
    ∃ severity, e = { d with severity } := by
  unfold judge at h
  split at h <;> cases h <;> exact ⟨_, rfl⟩

variable {size : Nat}

/-- A configuration does not make a diagnostic blame other nodes. -/
theorem Filtered.placed {all : Except Fault (List (Diagnostic Extent))}
    {validated : Config → Except Fault (List (Diagnostic Extent))} (h : Filtered all validated)
    (hall : ∀ ds, all = .ok ds → ∀ d ∈ ds, d.Placed size) (config : Config) :
    ∃ ds, validated config = .ok ds ∧ ∀ d ∈ ds, d.Placed size := by
  obtain ⟨ds, hds, hjudged⟩ := h.exists_judged config
  refine ⟨_, hjudged, fun e he => ?_⟩
  obtain ⟨d, hd, hjudge⟩ := List.mem_filterMap.mp he
  obtain ⟨_, rfl⟩ := Config.eq_of_judge hjudge
  exact hall ds hds d hd

/-- Complaints blame names that are declared. -/
theorem Declaration.exists_of_mem_complaints {schema : Option TypeSystem} {d : Diagnostic Extent}
    {c : Culprit Extent} (hc : c ∈ d.culprits) {xs : List Declaration}
    (hd : d ∈ complaints schema [] xs) : ∃ x ∈ xs, c = x.name.culprit := by
  obtain ⟨earlier, x, later, hsplit, hx⟩ := complaint?_of_mem_complaints [] xs hd
  rw [List.nil_append] at hsplit
  rw [hsplit]
  rcases cases_of_complaint? hx with rfl | ⟨first, hfirst, _, rfl⟩
  · obtain rfl := List.mem_singleton.mp hc
    exact ⟨x, by simp, rfl⟩
  · rcases List.mem_pair.mp hc with rfl | rfl
    · exact ⟨first, List.mem_append_left _ hfirst, rfl⟩
    · exact ⟨x, by simp, rfl⟩

/-- Warnings blame nodes of the document. -/
theorem Document.exists_of_mem_warnings {schema : TypeSystem} {doc : Document}
    {d : Diagnostic Extent} (hd : d ∈ (doc.uses schema).filterMap Use.warning?)
    {c : Culprit Extent} (hc : c ∈ d.culprits) : ∃ n ∈ doc.tree.nodes, c = n.culprit := by
  obtain ⟨u, hu, hwarning⟩ := List.mem_filterMap.mp hd
  obtain ⟨message, _, rfl⟩ := Option.map_eq_some_iff.mp hwarning
  obtain rfl := List.mem_singleton.mp hc
  have hmem : u.culprit ∈ (doc.uses schema).map (·.culprit) := List.mem_map_of_mem hu
  rw [← doc.used_tree schema, Tree.map_culprit_used] at hmem
  obtain ⟨n, hn, hculprit⟩ := List.mem_map.mp hmem
  exact ⟨n, List.mem_of_mem_filter hn, hculprit.symm⟩

namespace Source

variable {text text' : String}

theorem placed_validateSchema (hplain : Plain text) (config : Config)
    (schema : Option TypeSystem) :
    ∃ ds, validateSchema config schema (read text).document.tree = .ok ds ∧
      ∀ d ∈ ds, d.Placed (tokens text).length := by
  refine ((read text).document.filtered_validateSchema schema).placed ?_ config
  intro ds hds d hd c hc
  rw [(namesReported schema (read text).document).reported] at hds
  cases hds
  obtain ⟨x, hx, rfl⟩ := Declaration.exists_of_mem_complaints hc hd
  exact ⟨Nat.lt_succ_self _, hplain.declared x hx⟩

theorem placed_validateDocument (hplain : Plain text) (config : Config) (schema : TypeSystem) :
    ∃ ds, validateDocument config schema (read text).document.tree = .ok ds ∧
      ∀ d ∈ ds, d.Placed (tokens text).length := by
  refine ((read text).document.filtered_validateDocument schema).placed ?_ config
  intro ds hds d hd c hc
  have hwarnings := runDocumentRules_noDeprecated schema (read text).document
  rw [show runDocumentRules schema [noDeprecated] _ = _ from hds] at hwarnings
  cases hwarnings
  obtain ⟨n, hn, rfl⟩ := Document.exists_of_mem_warnings hd hc
  exact hplain.placed n hn

/-! ## Two layouts of the same tokens -/

/-- Diagnostics of two texts that differ at most in where they point, and point to the same
tokens. -/
structure Matches (text text' : String) (d d' : Diagnostic Span) : Prop where
  /-- They say the same. -/
  message : d.message = d'.message
  /-- The same rule says so. -/
  rule : d.rule = d'.rule
  /-- It matters as much. -/
  severity : d.severity = d'.severity
  /-- They blame as many nodes, one by one of the same kind and from and to the same
  tokens. -/
  culprits : List.Forall₂
    (fun c c' => c.kind = c'.kind ∧
      ∃ first last, Covers text first last c.place ∧ Covers text' first last c'.place)
    d.culprits d'.culprits

theorem matches_locate (hplain : Plain text) (hplain' : Plain text')
    (htokens : tokens text = tokens text') {ds : List (Diagnostic Extent)}
    (hds : ∀ d ∈ ds, d.Placed (tokens text).length) :
    List.Forall₂ (Matches text text') ((read text).locate ds) ((read text').locate ds) := by
  unfold locate
  rw [List.forall₂_map_left_iff, List.forall₂_map_right_iff, List.forall₂_same]
  intro d hd
  refine ⟨rfl, rfl, rfl, ?_⟩
  show List.Forall₂ _ (d.culprits.map _) (d.culprits.map _)
  rw [List.forall₂_map_left_iff, List.forall₂_map_right_iff, List.forall₂_same]
  intro c hc
  have hplace := hds d hd c hc
  exact ⟨rfl, _, _, covers_span hplain hplace, covers_span hplain' (htokens ▸ hplace)⟩

/-- What is made of two texts is the same, up to where diagnostics point. -/
structure SaysTheSame (text text' : String) : Prop where
  /-- They write the same document. -/
  document : (read text).document = (read text').document
  /-- A validation as executable documents ends for both, with diagnostics that match one by
  one. -/
  validateDocument : ∀ (config : Config) (schema : TypeSystem), ∃ ds ds',
    GraphLint.validateDocument config schema (read text).document.tree = .ok ds ∧
    GraphLint.validateDocument config schema (read text').document.tree = .ok ds' ∧
    List.Forall₂ (Matches text text') ((read text).locate ds) ((read text').locate ds')
  /-- So does a validation as type system documents. -/
  validateSchema : ∀ (config : Config) (schema : Option TypeSystem), ∃ ds ds',
    GraphLint.validateSchema config schema (read text).document.tree = .ok ds ∧
    GraphLint.validateSchema config schema (read text').document.tree = .ok ds' ∧
    List.Forall₂ (Matches text text') ((read text).locate ds) ((read text').locate ds')
  /-- With whatever other texts, they make up the same type system. -/
  typeSystem : ∀ (before behind : List (String × String)) (path path' : String),
    TypeSystem.ofTexts (before ++ (path, text) :: behind) =
      TypeSystem.ofTexts (before ++ (path', text') :: behind)

theorem document_eq_of_tokens (hplain : Plain text) (hplain' : Plain text')
    (htokens : tokens text = tokens text') : (read text).document = (read text').document := by
  rw [hplain.document, hplain'.document, htokens]

theorem ofTexts_eq_of_document (h : (read text).isWellFormed = true)
    (h' : (read text').isWellFormed = true)
    (hdocument : (read text).document = (read text').document)
    (before behind : List (String × String)) (path path' : String) :
    TypeSystem.ofTexts (before ++ (path, text) :: behind) =
      TypeSystem.ofTexts (before ++ (path', text') :: behind) := by
  have hread : readSchema path text = readSchema path' text' := by
    unfold readSchema
    simp only [h, h', hdocument, if_true]
  unfold TypeSystem.ofTexts
  simp only [List.mapM_append, List.mapM_cons, hread]

/-- What is made of texts without faults depends on their tokens only.  Layout says where
diagnostics point, and they point from and to the same tokens. -/
theorem layout_irrelevant (text text' : String) (h : (read text).isWellFormed = true)
    (h' : (read text').isWellFormed = true) (htokens : tokens text = tokens text') :
    SaysTheSame text text' := by
  have hplain := plain h
  have hplain' := plain h'
  have hdocument := document_eq_of_tokens hplain hplain' htokens
  refine ⟨hdocument, ?_, ?_, ofTexts_eq_of_document h h' hdocument⟩
  · intro config schema
    obtain ⟨ds, hds, hplaced⟩ := placed_validateDocument hplain config schema
    refine ⟨ds, ds, hds, ?_, matches_locate hplain hplain' htokens hplaced⟩
    rw [← hdocument, hds]
  · intro config schema
    obtain ⟨ds, hds, hplaced⟩ := placed_validateSchema hplain config schema
    refine ⟨ds, ds, hds, ?_, matches_locate hplain hplain' htokens hplaced⟩
    rw [← hdocument, hds]

/-- A query and two types of one name, as dense as can be. -/
def denseText : String := "\x7bold:x(a:[1 2])\x7dtype A enum A\x7bB\x7d"

/-- The same with a byte order mark, a comment, commas and blanks. -/
def looseText : String :=
  "\ufeff# The same,\n\x7b , old: x(a: [1, 2,]),\n\x7d\n\ntype A,\tenum A \x7b B \x7d"

theorem layout_irrelevant_loose :
    (read denseText).isWellFormed = true ∧ (read looseText).isWellFormed = true ∧
      tokens denseText = tokens looseText ∧ SaysTheSame denseText looseText := by
  have hdense : (read denseText).isWellFormed = true := by decide +kernel
  have hloose : (read looseText).isWellFormed = true := by decide +kernel
  have htokens : tokens denseText = tokens looseText := by decide +kernel
  exact ⟨hdense, hloose, htokens, layout_irrelevant _ _ hdense hloose htokens⟩

/-- The second type named `A` is reported in both, at its name. -/
example :
    (validateSchema .default none (read denseText).document.tree).map
        (fun ds => ((read denseText).locate ds).map (·.primary?)) = .ok [some ⟨28, 29⟩] ∧
      (validateSchema .default none (read looseText).document.tree).map
        (fun ds => ((read looseText).locate ds).map (·.primary?)) = .ok [some ⟨55, 56⟩] := by
  decide +kernel

end Source

end GraphLint
