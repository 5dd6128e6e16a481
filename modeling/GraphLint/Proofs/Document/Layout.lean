import GraphLint.Proofs.Document.Rows

/-!
# Layout does not reach the tree

Each production reads over commas (`Production.Reads`), and what it reads stands, in a row,
between the place at which it begins and the place to which it comes (`Row`).  So all nodes
of a document span tokens of its text.
-/

set_option autoImplicit false

namespace GraphLint

/-! ## Places of nodes -/

/-- A run of at least one token, in a text of `size` tokens. -/
structure Extent.Within (size : Nat) (e : Extent) : Prop where
  /-- There is a token in it. -/
  nonempty : e.first < e.stop
  /-- All its tokens are of the text. -/
  stop_le : e.stop ≤ size

/-- All nodes of a tree span tokens of a text of `size` tokens. -/
def Tree.Placed (size : Nat) (t : Tree) : Prop := ∀ n ∈ t.nodes, n.extent.Within size

/-- All nodes of a row span tokens before its end. -/
theorem Row.placed {tokens : List Token} {first stop : Nat} {ps : List Phrase}
    (h : Row tokens first ps stop) :
    ∀ n ∈ Tree.nodesAll (ps.flatMap Phrase.trees), n.extent.Within stop := by
  induction h with
  | nil _ => exact fun n hn => absurd hn List.not_mem_nil
  | skip hp _ ih =>
      rw [List.flatMap_cons, Phrase.trees_of_node?_eq_none hp]
      exact ih
  | cons hp _ hn _ hps ihparts ih =>
      rw [List.flatMap_cons, Phrase.trees_of_node? hp, Tree.nodesAll_append, Tree.nodesAll,
        Tree.nodes, Tree.nodesAll, List.append_nil]
      refine List.forall_mem_append.mpr ⟨List.forall_mem_cons.mpr ⟨⟨hn.nonempty, hps.le⟩, ?_⟩, ih⟩
      exact fun m hm => ⟨(ihparts m hm).nonempty, Nat.le_trans (ihparts m hm).stop_le hps.le⟩

/-! ## How phrases come to stand -/

namespace Phrase.Stands

variable {tokens : List Token} {p : Phrase} {construct : Construct} {first stop : Nat}

/-- A phrase without a name and an alias stands where it has a token. -/
theorem nameless (hnonempty : first < stop) (halias : p.alias? = none) :
    p.Stands tokens ⟨construct, none, ⟨first, stop⟩⟩ where
  nonempty := hnonempty
  name _ hm := nomatch hm
  lead _ _ hm := nomatch hm
  aliased _ hm := by rw [halias] at hm; cases hm

/-- A phrase with a name and without an alias, which is no definition, stands where its name
does. -/
theorem named {m : Name} (hm : m.IsAmong tokens) (hfirst : first ≤ m.token)
    (hstop : m.token < stop) (hp : ¬ p.IsDefinition) (halias : p.alias? = none) :
    p.Stands tokens ⟨construct, some m, ⟨first, stop⟩⟩ where
  nonempty := Nat.lt_of_le_of_lt hfirst hstop
  name := by
    rintro _ ⟨⟩
    exact ⟨hm, hfirst, hstop⟩
  lead hp' := absurd hp' hp
  aliased _ hm' := by rw [halias] at hm'; cases hm'

/-- A definition stands where its name comes behind its first token. -/
theorem defined {d : Definition} {name : Option Name} (hnonempty : first < stop)
    (hname : ∀ m, name = some m → m.IsAmong tokens ∧ first < m.token ∧ m.token < stop) :
    (Phrase.definition d).Stands tokens ⟨construct, name, ⟨first, stop⟩⟩ where
  nonempty := hnonempty
  name m hm := ⟨(hname m hm).1, Nat.le_of_lt (hname m hm).2.1, (hname m hm).2.2⟩
  lead _ m hm := (hname m hm).2.1
  aliased _ hm := nomatch hm

end Phrase.Stands

/-- A name among the tokens spans one of them. -/
theorem Name.IsAmong.within {tokens : List Token} {m : Name} (hm : m.IsAmong tokens) :
    m.extent.Within tokens.length :=
  ⟨Nat.lt_succ_self _, (List.getElem?_eq_some_iff.mp hm).1⟩

/-- Where a token was to be taken before a name, it has been taken. -/
theorem Name.IsAmong.lt_of_bump {tokens : List Token} {m : Name} {i j : Nat}
    (hm : m.IsAmong tokens) (hbump : j = i + 1 ∨ tokens.length ≤ i) (hij : i ≤ j)
    (hj : j ≤ m.token) : i < m.token := by
  have hlt : m.token < tokens.length := hm.within.stop_le
  omega

/-- A phrase that begins and ends where its node does. -/
theorem Row.whole {tokens : List Token} {p : Phrase} {construct : Construct} {name : Option Name}
    {first stop : Nat} (hp : p.node? = some ⟨construct, name, ⟨first, stop⟩⟩)
    (hn : p.Stands tokens ⟨construct, name, ⟨first, stop⟩⟩)
    (hparts : Row tokens first p.parts stop) : Row tokens first [p] stop :=
  .single hp (Nat.le_refl _) (Nat.le_refl _) hn hparts

/-- A value that has no name and consists of nothing. -/
theorem Row.leaf {tokens : List Token} {v : Value} {kind : ValueKind} {first stop : Nat}
    (hnode : (Phrase.value v).node? = some ⟨.value kind, none, ⟨first, stop⟩⟩)
    (hparts : (Phrase.value v).parts = []) (hnonempty : first < stop) :
    Row tokens first [.value v] stop := by
  refine .whole hnode (.nameless hnonempty rfl) ?_
  rw [hparts]
  exact .nil (Nat.le_of_lt hnonempty)

/-- There is a token in a definition. -/
theorem Row.lt_definition {tokens : List Token} {d : Definition} {first stop : Nat}
    (h : Row tokens first [.definition d] stop) : first < stop := by
  obtain ⟨n, hn⟩ : ∃ n, (Phrase.definition d).node? = some n := by cases d <;> exact ⟨_, rfl⟩
  obtain ⟨hfirst, hstop, hstands, -⟩ := h.of_mem (List.mem_singleton_self _) hn
  exact Nat.lt_of_le_of_lt hfirst (Nat.lt_of_lt_of_le hstands.nonempty hstop)

namespace Grammar

open Production

variable {tokens : List Token} {c : Cursor}

/-! ## Values, arguments and directives -/

/-- A value that is one token. -/
theorem token_reads {t : Token} (hnext : c.next = some t) {make : Extent → Value}
    {kind : ValueKind} (hnode : ∀ e, (Phrase.value (make e)).node? = some ⟨.value kind, none, e⟩)
    (hparts : ∀ e, (Phrase.value (make e)).parts = []) :
    (do bump; return make (← extentFrom c.index) : Production Value).Reads tokens c fun v i =>
      Row tokens c.index [.value v] i ∧ c.index < i := by
  refine .take hnext fun c₁ _ h₁ => .extentFrom (.pure fun _ => ?_)
  have hstop : c.index < c₁.index := by omega
  exact ⟨.leaf (hnode _) (hparts _) hstop, hstop⟩

section

variable {inner : Production Value}
  (hinner : ∀ c, inner.Reads tokens c fun v i => Row tokens c.index [.value v] i)

include hinner

theorem listItem_reads (c : Cursor) :
    (listItem inner).Reads tokens c fun v i => Row tokens c.index [.value v] i := by
  refine .bind (hinner c) fun v c₁ hv h₁ => ?_
  split
  · exact .bind .bump fun _ c₂ _ h₂ => .pure fun _ => .missing rfl (Nat.le_trans h₁ h₂)
  · exact .pure fun _ => hv

theorem objectField_reads (n : Name) (c : Cursor) (hn : n.IsAmong tokens)
    (hc : c.index = n.token + 1) :
    (objectField inner n).Reads tokens c fun f i => Row tokens n.token [.objectField f] i := by
  have hgiven : ∀ (v : Value) (c₁ : Cursor), Row tokens c.index [.value v] c₁.index →
      (do return .mk (← extentFrom n.token) n v : Production ObjectField).Reads tokens c₁
        fun f i => Row tokens n.token [.objectField f] i := by
    intro v c₁ hv
    have hle := hv.le
    refine .extentFrom (.pure fun _ => .whole rfl ?_ (hv.from_le (by omega)))
    exact .named hn (Nat.le_refl _) (by omega) id rfl
  refine .bind .eat fun found c₁ _ h₁ => ?_
  split
  · exact .bind (hinner c₁) fun v c₂ hv _ => hgiven v c₂ (hv.from_le h₁)
  · exact hgiven .missing c₁ (.missing rfl h₁)

theorem valueWith_reads (isConstant : Bool) :
    (valueWith isConstant inner).Reads tokens c fun v i =>
      Row tokens c.index [.value v] i ∧ c.index < i := by
  refine .here (.peek ?_)
  split
  · next hnext =>
      split
      · exact .behindFault
      · refine .take hnext fun c₁ _ h₁ => .bind .name fun n? c₂ hname _ => ?_
        obtain ⟨n, rfl, htoken, hn, h₂⟩ := hname
        refine .extentFrom (.pure fun _ => ?_)
        have hstop : c.index < c₂.index := by omega
        refine ⟨.whole rfl ?_ (.nil (Nat.le_of_lt hstop)), hstop⟩
        exact .named hn (by omega) (by omega) id rfl
  · next hnext => exact token_reads hnext (fun _ => rfl) fun _ => rfl
  · next hnext => exact token_reads hnext (fun _ => rfl) fun _ => rfl
  · next hnext => exact token_reads hnext (fun _ => rfl) fun _ => rfl
  · next hnext => exact token_reads hnext (fun _ => rfl) fun _ => rfl
  · next hnext =>
      refine .take hnext fun c₁ htoken h₁ => .extentFrom ?_
      have hstop : c.index < c₁.index := by omega
      split
      · exact .pure fun _ => ⟨.leaf rfl rfl hstop, hstop⟩
      · exact .pure fun _ => ⟨.leaf rfl rfl hstop, hstop⟩
      · exact .pure fun _ => ⟨.leaf rfl rfl hstop, hstop⟩
      · refine .pure fun _ => ⟨.whole rfl ?_ (.nil (Nat.le_of_lt hstop)), hstop⟩
        exact .named (m := ⟨_, c.index⟩) htoken (Nat.le_refl _) hstop id rfl
  · next hnext =>
      refine .take hnext fun c₁ _ h₁ => ?_
      refine .bind (.many (Row.chain _) (listItem_reads hinner)) fun items c₂ hitems _ => ?_
      refine .bind .expect fun _ c₃ h₃ _ => .extentFrom (.pure fun _ => ?_)
      have hle := hitems.le
      have hstop : c.index < c₃.index := by omega
      refine ⟨.whole rfl (.nameless hstop rfl) ?_, hstop⟩
      exact hitems.widen (by omega) (Nat.le_of_lt h₃)
  · next hnext =>
      refine .take hnext fun c₁ _ h₁ => ?_
      refine .bind (.manyNamed (Row.chain _) (objectField_reads hinner))
        fun fields c₂ hfields _ => ?_
      refine .bind .expect fun _ c₃ h₃ _ => .extentFrom (.pure fun _ => ?_)
      have hle := hfields.le
      have hstop : c.index < c₃.index := by omega
      refine ⟨.whole rfl (.nameless hstop rfl) ?_, hstop⟩
      exact hfields.widen (by omega) (Nat.le_of_lt h₃)
  · exact .behindFault

end

theorem value_reads (isConstant : Bool) :
    ∀ (room : Nat) (c : Cursor), (value isConstant room).Reads tokens c fun v i =>
      Row tokens c.index [.value v] i ∧ c.index < i
  | 0, _ => valueWith_reads (fun _ => .behindAbandon) isConstant
  | room + 1, _ =>
    valueWith_reads (fun c => (value_reads isConstant room c).mono fun _ _ _ h => h.1) isConstant

theorem argument_reads (isConstant : Bool) (room : Nat) (n : Name) (c : Cursor)
    (hn : n.IsAmong tokens) (hc : c.index = n.token + 1) (owner : ArgumentOwner) :
    (argument isConstant room n).Reads tokens c fun a i =>
      Row tokens n.token [.argument owner a] i := by
  have hgiven : ∀ (v : Value) (c₁ : Cursor), Row tokens c.index [.value v] c₁.index →
      (do return ⟨← extentFrom n.token, n, v⟩ : Production Argument).Reads tokens c₁
        fun a i => Row tokens n.token [.argument owner a] i := by
    intro v c₁ hv
    have hle := hv.le
    refine .extentFrom (.pure fun _ => .whole rfl ?_ (hv.from_le (by omega)))
    exact .named hn (Nat.le_refl _) (show n.token < c₁.index by omega) id rfl
  refine .bind .eat fun found c₁ _ h₁ => ?_
  split
  · exact .bind (value_reads isConstant room c₁) fun v c₂ hv _ => hgiven v c₂ (hv.1.from_le h₁)
  · exact hgiven .missing c₁ (.missing rfl h₁)

theorem arguments_reads (isConstant : Bool) (room : Nat) (owner : ArgumentOwner) :
    (arguments isConstant room).Reads tokens c fun given i =>
      Row tokens c.index (given.map (.argument owner)) i := by
  have hone : ∀ n c, n.IsAmong tokens → c.index = n.token + 1 →
      (argument isConstant room n).Reads tokens c fun a i =>
        Row tokens n.token [.argument owner a] i :=
    fun n c hn hc => argument_reads isConstant room n c hn hc owner
  refine .bind .eat fun found c₁ _ h₁ => ?_
  split
  · refine .bind (.manyNamed (Row.chain _) hone) fun given c₂ hgiven _ => ?_
    split
    · exact .behindFault
    · exact .bind .expect fun _ c₃ h₃ _ => .pure fun _ => hgiven.widen h₁ (Nat.le_of_lt h₃)
  · exact .pure fun _ => .nil h₁

theorem directive_reads (isConstant : Bool) (room : Nat) (c : Cursor) :
    (directive isConstant room).Reads tokens c fun d i => Row tokens c.index [.directive d] i := by
  refine .here (.bind .expect fun _ c₁ h₁ _ => .bind .name fun n? c₂ hname _ => ?_)
  obtain ⟨n, rfl, htoken, hn, h₂⟩ := hname
  refine .bind (arguments_reads isConstant room .directive) fun given c₃ hgiven h₃ => ?_
  refine .extentFrom (.pure fun _ => .whole rfl ?_ (hgiven.from_le (by omega)))
  exact .named hn (by omega) (by omega) id rfl

theorem directives_reads (isConstant : Bool) (room : Nat) :
    (directives isConstant room).Reads tokens c fun uses i =>
      Row tokens c.index (uses.map .directive) i :=
  .many (Row.chain _) (directive_reads isConstant room)

theorem constantDirectives_reads :
    constantDirectives.Reads tokens c fun uses i => Row tokens c.index (uses.map .directive) i :=
  directives_reads true nestingLimit

/-! ## Types -/

theorem typeSyntaxWith_reads {item : Production TypeSyntax}
    (hitem : ∀ c, item.Reads tokens c fun _ _ => True) :
    (typeSyntaxWith item).Reads tokens c fun _ _ => True := by
  refine .peek ?_
  split
  · exact .bind .bump fun _ _ _ _ => .bind .eat fun _ _ _ _ => .pure fun _ => trivial
  · refine .bind .bump fun _ c₁ _ _ => .bind (hitem c₁) fun type c₂ _ _ => ?_
    exact .bind .expect fun _ _ _ _ => .bind .eat fun _ _ _ _ => .pure fun _ => trivial
  · exact .behindFault

theorem typeSyntax_reads :
    ∀ (room : Nat) (c : Cursor), (typeSyntax room).Reads tokens c fun _ _ => True
  | 0, _ => typeSyntaxWith_reads fun _ => .behindAbandon
  | room + 1, _ => typeSyntaxWith_reads (typeSyntax_reads room)

theorem typed_reads {α : Type} {phrases : α → List Phrase} {rest : Production α} {nothing : α}
    (hrest : ∀ c, rest.Reads tokens c fun a i => Row tokens c.index (phrases a) i) :
    (typed rest nothing).Reads tokens c fun x i => Row tokens c.index (phrases x.2) i := by
  have hbehind : ∀ c₁ : Cursor, c.index ≤ c₁.index → (do
      let type ← typeSyntax nestingLimit
      return (type, ← rest) : Production (TypeSyntax × α)).Reads tokens c₁ fun x i =>
        Row tokens c.index (phrases x.2) i := by
    intro c₁ h₁
    refine .bind (typeSyntax_reads nestingLimit c₁) fun type c₂ _ h₂ => ?_
    exact .bind (hrest c₂) fun _ _ ha _ => .pure fun _ => ha.from_le (Nat.le_trans h₁ h₂)
  refine .bind .eat fun found c₁ _ h₁ => ?_
  split
  · refine .peek ?_
    split
    · exact hbehind c₁ h₁
    · exact hbehind c₁ h₁
    · exact .behindFault
  · exact .behindFault

theorem defaultValue_reads :
    defaultValue.Reads tokens c fun v i => Row tokens c.index [.value v] i := by
  refine .bind .eat fun found c₁ _ h₁ => ?_
  split
  · exact (value_reads true nestingLimit c₁).mono fun _ _ _ h => h.1.from_le h₁
  · exact .pure fun _ => .missing rfl h₁

theorem defaultAndDirectives_reads (c : Cursor) :
    defaultAndDirectives.Reads tokens c fun x i =>
      Row tokens c.index (.value x.1 :: x.2.map .directive) i := by
  refine .bind defaultValue_reads fun given c₁ hgiven _ => ?_
  exact .bind constantDirectives_reads fun uses c₂ huses _ => .pure fun _ => hgiven.append huses

/-! ## Executable definitions -/

theorem typeCondition_reads : typeCondition.Reads tokens c fun _ _ => True := by
  refine .peek ?_
  split
  · exact .bind .bump fun _ c₁ _ _ => .mono .name fun _ _ _ _ => trivial
  · exact .behindFault
  · exact .behindFault

theorem fragmentName_reads : fragmentName.Reads tokens c fun n? i =>
    ∃ n, n? = some n ∧ n.token = c.index ∧ n.IsAmong tokens ∧ i = c.index + 1 := by
  refine .seesWord ?_
  split
  · exact .behindFault
  · exact .name

section

variable {selections : Production SelectionSet}

theorem optionalSelections_reads (hselections : selections.Reads tokens c fun s i =>
      Row tokens c.index [.selectionSet s] i ∧ c.index < i) :
    (optionalSelections selections).Reads tokens c fun s i =>
      Row tokens c.index [.selectionSet s] i := by
  refine .sees ?_
  split
  · exact hselections.mono fun _ _ _ h => h.1
  · exact .pure fun _ => .missing rfl (Nat.le_refl _)

theorem requiredSelections_reads (hselections : selections.Reads tokens c fun s i =>
      Row tokens c.index [.selectionSet s] i ∧ c.index < i) :
    (requiredSelections selections).Reads tokens c fun s i =>
      Row tokens c.index [.selectionSet s] i ∧ c.index < i := by
  refine .sees ?_
  split
  · exact hselections
  · exact .behindFault

end

theorem fragmentSpread_reads (room : Nat) :
    (fragmentSpread room).Reads tokens c fun s i => Row tokens c.index [.selection s] i := by
  refine .here (.bind .expect fun _ c₁ h₁ _ => .bind fragmentName_reads fun n? c₂ hname _ => ?_)
  obtain ⟨n, rfl, htoken, hn, h₂⟩ := hname
  refine .bind (directives_reads false room) fun uses c₃ huses h₃ => ?_
  refine .extentFrom (.pure fun _ => .whole rfl ?_ (huses.from_le (by omega)))
  exact .named hn (by omega) (by omega) id rfl

section

variable {room : Nat} {selections : Production SelectionSet}
  (hselections : ∀ c, selections.Reads tokens c fun s i =>
    Row tokens c.index [.selectionSet s] i ∧ c.index < i)

include hselections

theorem inlineFragment_reads :
    (inlineFragment room selections).Reads tokens c fun s i =>
      Row tokens c.index [.selection s] i := by
  have hrest : ∀ (condition : Option Name) (c' : Cursor), c.index < c'.index → (do
      let uses ← directives false room
      let below ← requiredSelections selections
      return .inline ⟨← extentFrom c.index, condition, uses⟩ below :
        Production Selection).Reads tokens c' fun s i => Row tokens c.index [.selection s] i := by
    intro condition c' h'
    refine .bind (directives_reads false room) fun uses c₂ huses h₂ => ?_
    refine .bind (requiredSelections_reads (hselections c₂)) fun below c₃ hbelow h₃ => ?_
    refine .extentFrom (.pure fun _ => .whole rfl (.nameless ?_ rfl) ?_)
    · show c.index < c₃.index
      omega
    · exact (huses.append hbelow.1).from_le (Nat.le_of_lt h')
  refine .here (.bind .expect fun _ c₁ h₁ _ => .peek ?_)
  split
  · exact .bind typeCondition_reads fun condition c₂ _ h₂ => hrest condition c₂ (by omega)
  · exact hrest none c₁ h₁

/-- A place at which no text can go on: behind a selected field stands a colon. -/
def AtColon (c : Cursor) : Prop := c.next = some (.punctuator .colon)

/-- A field.  If a comma stands between an alias and its colon, the alias is read as the
field, and the colon is left. -/
theorem field_reads {text : String} (hname : c.next = some (.name text)) :
    (field room selections).ReadsUnless tokens AtColon c fun s i =>
      Row tokens c.index [.selection s] i := by
  by_cases hhidden : c.ahead[1]? = some ⟨.punctuator .colon, true⟩
  · obtain ⟨ahead, index, discarded, faults, isAbandoned⟩ := c
    match ahead, hname, hhidden with
    | ⟨_, _⟩ :: ⟨_, _⟩ :: rest, rfl, rfl => exact fun _ _ => .inr rfl
  · have hrest : ∀ (aliasName : Option Name) (c' : Cursor), c.index ≤ c'.index →
        (∀ m, aliasName = some m → m.IsAmong tokens ∧ m.token = c.index) → (do
        let own ← name
        let given ← arguments false room
        let uses ← directives false room
        let below ← optionalSelections selections
        return .field ⟨← extentFrom c.index, aliasName, own, given, uses⟩ below :
          Production Selection).ReadsUnless tokens AtColon c' fun s i =>
            Row tokens c.index [.selection s] i := by
      intro aliasName c' h' halias
      refine .bind .name fun own? c₁ hown _ => ?_
      obtain ⟨own, rfl, htoken, hamong, h₁⟩ := hown
      refine .bind (arguments_reads false room .field) fun given c₂ hgiven h₂ => ?_
      refine .bind (directives_reads false room) fun uses c₃ huses h₃ => ?_
      refine .bind (optionalSelections_reads (hselections c₃)) fun below c₄ hbelow h₄ => ?_
      have hstop : own.token < c₄.index := by omega
      refine .extentFrom (.pure fun _ => .whole rfl ⟨?_, ?_, nofun, halias⟩ ?_)
      · exact Nat.lt_of_le_of_lt (htoken ▸ h') hstop
      · rintro _ ⟨⟩
        exact ⟨hamong, htoken ▸ h', hstop⟩
      · exact ((hgiven.append huses).append hbelow).from_le (by omega)
    refine .here (.second ?_ ?_)
    · simp only [beq_peekSecond hhidden]
    · cases hsecond : (peekSecond.run c).1 == some (.punctuator .colon) with
      | true =>
          refine .bind .name? fun aliasName c₁ halias h₁ => .bind .bump fun _ c₂ _ h₂ => ?_
          refine hrest aliasName c₂ (by omega) fun m hm => ?_
          obtain ⟨htoken, hamong, -⟩ := halias m hm
          exact ⟨hamong, htoken⟩
      | false => exact hrest none c (Nat.le_refl _) nofun

theorem selection?_reads (isFirst : Bool) :
    (selection? room selections isFirst).ReadsUnless tokens AtColon c fun s? i =>
      ∀ s, s? = some s → Row tokens c.index [.selection s] i := by
  have hfound : ∀ {p : Production Selection},
      (p.ReadsUnless tokens AtColon c fun s i => Row tokens c.index [.selection s] i) →
      (p >>= fun s => pure (some s)).ReadsUnless tokens AtColon c fun s? i =>
        ∀ s, s? = some s → Row tokens c.index [.selection s] i := by
    intro p hp
    refine .bind_unless hp (fun _ _ _ h _ => h) fun s c₁ hs _ => .pure fun _ => ?_
    rintro _ ⟨⟩
    exact hs
  refine .peek ?_
  split
  · refine .peekSecond .behindFaultAndBump fun second => ?_
    split
    · exact hfound (.weaken (inlineFragment_reads hselections))
    · exact hfound (.weaken (inlineFragment_reads hselections))
    · exact hfound (.weaken (inlineFragment_reads hselections))
    · exact hfound (.weaken (fragmentSpread_reads room))
    · exact .behindFaultAndBump
  · next hname => exact hfound (field_reads hselections hname)
  · exact .pure fun _ _ h => nomatch h
  · split
    · exact .behindFaultAndBump
    · exact .pure fun _ _ h => nomatch h

omit hselections in
/-- At a colon there are no further members. -/
theorem membersWithin_atColon {bound : Nat} (hc : AtColon c) :
    ((membersWithin room selections false bound).run c).2 = c := by
  cases bound with
  | zero => rfl
  | succ bound =>
      obtain ⟨ahead, index, discarded, faults, isAbandoned⟩ := c
      match ahead, hc with
      | ⟨_, _⟩ :: rest, rfl => rfl

theorem membersWithin_reads : ∀ (bound : Nat) (isFirst : Bool) (c : Cursor),
    (membersWithin room selections isFirst bound).ReadsUnless tokens AtColon c fun ss i =>
      Row tokens c.index (ss.map .selection) i
  | 0, _, _ => .pure fun _ => .nil (Nat.le_refl _)
  | bound + 1, isFirst, c => by
      refine .bind_unless (selection?_reads hselections isFirst) ?_ fun s? c₁ hs h₁ => ?_
      · intro s? c₁ _ hcolon _
        cases s? with
        | none => exact hcolon
        | some s =>
            show AtColon ((membersWithin room selections false bound).run c₁).2
            rw [membersWithin_atColon hcolon]
            exact hcolon
      · cases s? with
        | none => exact .pure fun _ => .nil h₁
        | some s =>
            refine .bind_unless (membersWithin_reads bound false c₁) (fun _ _ _ h _ => h) ?_
            exact fun ss c₂ hss _ => .pure fun _ => (hs s rfl).append hss

end

/-- A text that goes on with a colon faults where the grammar asks for another mark. -/
theorem expect_atColon {mark : Punctuator} (hmark : mark ≠ .colon) (hstill : c.isAbandoned = false)
    (hc : AtColon c) : ((expect mark).run c).2.faults ≠ [] := by
  have hrun : ((expect mark).run c).2 = c.noting mark.text := by
    obtain ⟨ahead, index, discarded, faults, isAbandoned⟩ := c
    match ahead, hc with
    | ⟨_, _⟩ :: rest, rfl => cases mark <;> first | rfl | exact absurd rfl hmark
  rw [hrun]
  exact c.noting_ne_nil hstill _

theorem selectionSet_reads : ∀ (room : Nat) (c : Cursor),
    (selectionSet room).Reads tokens c fun s i =>
      Row tokens c.index [.selectionSet s] i ∧ c.index < i
  | room, c => by
      unfold selectionSet
      refine .here (.bind .expect fun _ c₁ h₁ _ => ?_)
      cases room with
      | zero => exact .behindAbandon
      | succ room =>
          refine .remaining ?_
          refine .bind_unless (membersWithin_reads (selectionSet_reads room) _ true c₁) ?_ ?_
          · intro found c₂ hstill hcolon hfaults
            have hclose : ((expect .braceClose).run c₂).2.faults = [] :=
              ((Production.leads _) _).faults hfaults
            exact expect_atColon (by decide) hstill hcolon hclose
          · intro found c₂ hfound h₂
            refine .bind .expect fun _ c₃ h₃ _ => .extentFrom (.pure fun _ => ?_)
            have hstop : c.index < c₃.index := by omega
            refine ⟨.whole rfl (.nameless hstop rfl) ?_, hstop⟩
            exact hfound.widen (Nat.le_of_lt h₁) (Nat.le_of_lt h₃)

theorem selections_reads : selections.Reads tokens c fun s i =>
    Row tokens c.index [.selectionSet s] i ∧ c.index < i :=
  requiredSelections_reads (selectionSet_reads nestingLimit c)

theorem variableDefinition_reads (c : Cursor) :
    variableDefinition.Reads tokens c fun d i => Row tokens c.index [.variableDefinition d] i := by
  refine .here (.bind .expect fun _ c₁ h₁ _ => .bind .name fun _ c₂ hname h₂ => ?_)
  refine .bind (typed_reads defaultAndDirectives_reads) fun x c₃ hx h₃ => ?_
  refine .extentFrom (.pure fun _ => .whole rfl (.nameless ?_ rfl) (hx.from_le (by omega)))
  show c.index < c₃.index
  omega

theorem variableDefinitions_reads :
    variableDefinitions.Reads tokens c fun ds i =>
      Row tokens c.index (ds.map .variableDefinition) i := by
  refine .bind .eat fun found c₁ _ h₁ => ?_
  split
  · refine .bind (.many (Row.chain _) variableDefinition_reads) fun ds c₂ hds _ => ?_
    split
    · exact .behindFault
    · exact .bind .expect fun _ c₃ h₃ _ => .pure fun _ => hds.widen h₁ (Nat.le_of_lt h₃)
  · exact .pure fun _ => .nil h₁

theorem operation_reads (kind : OperationKind) :
    (operation kind).Reads tokens c fun d i => Row tokens c.index [.definition d] i := by
  refine .here (.bind .bump fun _ c₁ hbump h₁ => .bind .name? fun n c₂ hname h₂ => ?_)
  refine .bind variableDefinitions_reads fun defined c₃ hdefined h₃ => ?_
  refine .bind (directives_reads false nestingLimit) fun uses c₄ huses h₄ => .sees ?_
  split
  · refine .bind (selectionSet_reads nestingLimit c₄) fun below c₅ hbelow _ => ?_
    have hstop : c.index < c₅.index := by omega
    refine .extentFrom (.pure fun _ => .whole rfl (.defined hstop fun m hm => ?_) ?_)
    · obtain ⟨htoken, hm, hnext⟩ := hname m hm
      have hlt : m.token < c₅.index := by omega
      exact ⟨hm, hm.lt_of_bump hbump h₁ (Nat.le_of_eq htoken.symm), hlt⟩
    · exact ((hdefined.append huses).append hbelow.1).from_le (by omega)
  · exact .behindFaultAndBump

theorem shorthand_reads :
    shorthand.Reads tokens c fun d i => Row tokens c.index [.definition d] i := by
  refine .here (.bind selections_reads fun below c₁ hbelow _ => .extentFrom (.pure fun _ => ?_))
  exact .whole rfl (.defined hbelow.2 nofun) hbelow.1

theorem fragmentDefinition_reads :
    fragmentDefinition.Reads tokens c fun d i => Row tokens c.index [.definition d] i := by
  refine .here (.bind .bump fun _ c₁ hbump h₁ => .bind fragmentName_reads fun n? c₂ hname _ => ?_)
  obtain ⟨n, rfl, htoken, hn, h₂⟩ := hname
  refine .bind typeCondition_reads fun condition c₃ _ h₃ => ?_
  refine .bind (directives_reads false nestingLimit) fun uses c₄ huses h₄ => ?_
  refine .bind selections_reads fun below c₅ hbelow h₅ => ?_
  have hlt : n.token < c₅.index := by omega
  refine .extentFrom (.pure fun _ => .whole rfl (.defined ?_ ?_) ?_)
  · show c.index < c₅.index
    omega
  · rintro _ ⟨⟩
    exact ⟨hn, hn.lt_of_bump hbump h₁ (Nat.le_of_eq htoken.symm), hlt⟩
  · exact (huses.append hbelow.1).from_le (by omega)

/-! ## Type system definitions -/

theorem description_reads : description.Reads tokens c fun _ _ => True := by
  refine .peek ?_
  split
  · split
    · exact .bind .bump fun _ _ _ _ => .pure fun _ => trivial
    · exact .pure fun _ => trivial
  · exact .pure fun _ => trivial

theorem members_reads {α : Type} {make : α → Phrase} {opening closing : Punctuator}
    {expected : String} {member : Production α}
    (hmember : ∀ c, member.Reads tokens c fun a i => Row tokens c.index [make a] i) :
    (members opening closing expected member).Reads tokens c fun as i =>
      Row tokens c.index (as.map make) i := by
  refine .bind .eat fun found c₁ _ h₁ => ?_
  split
  · refine .bind (.many (Row.chain _) hmember) fun as c₂ has _ => ?_
    split
    · exact .behindFault
    · exact .bind .expect fun _ c₃ h₃ _ => .pure fun _ => has.widen h₁ (Nat.le_of_lt h₃)
  · exact .pure fun _ => .nil h₁

theorem inputValueDefinition_reads (c : Cursor) :
    inputValueDefinition.Reads tokens c fun d i =>
      Row tokens c.index [.inputValueDefinition d] i := by
  refine .here (.bind description_reads fun about c₁ _ h₁ => .bind .name fun n? c₂ hname _ => ?_)
  obtain ⟨n, rfl, htoken, hn, h₂⟩ := hname
  refine .bind (typed_reads defaultAndDirectives_reads) fun x c₃ hx h₃ => ?_
  refine .extentFrom (.pure fun _ => .whole rfl ?_ (hx.from_le (by omega)))
  exact .named hn (by omega) (by omega) id rfl

theorem argumentDefinitions_reads :
    argumentDefinitions.Reads tokens c fun ds i =>
      Row tokens c.index (ds.map .inputValueDefinition) i :=
  members_reads inputValueDefinition_reads

theorem fieldDefinition_reads (c : Cursor) :
    fieldDefinition.Reads tokens c fun d i => Row tokens c.index [.fieldDefinition d] i := by
  refine .here (.bind description_reads fun about c₁ _ h₁ => .bind .name fun n? c₂ hname _ => ?_)
  obtain ⟨n, rfl, htoken, hn, h₂⟩ := hname
  refine .bind argumentDefinitions_reads fun takes c₃ htakes h₃ => ?_
  refine .bind (typed_reads fun _ => constantDirectives_reads) fun x c₄ hx h₄ => ?_
  refine .extentFrom (.pure fun _ => .whole rfl ?_ ((htakes.append hx).from_le (by omega)))
  exact .named hn (by omega) (by omega) id rfl

theorem enumValueDefinition_reads (c : Cursor) :
    enumValueDefinition.Reads tokens c fun d i =>
      Row tokens c.index [.enumValueDefinition d] i := by
  refine .here (.bind description_reads fun about c₁ _ h₁ => ?_)
  refine .seesWord (.seesWord (.seesWord ?_))
  split
  · exact .behindFault
  · refine .bind .name fun n? c₂ hname _ => ?_
    obtain ⟨n, rfl, htoken, hn, h₂⟩ := hname
    refine .bind constantDirectives_reads fun uses c₃ huses h₃ => ?_
    refine .extentFrom (.pure fun _ => .whole rfl ?_ (huses.from_le (by omega)))
    exact .named hn (by omega) (by omega) id rfl

theorem names_reads (mark : Punctuator) : (names mark).Reads tokens c fun _ _ => True := by
  have hname : ∀ c, name.Reads tokens c fun _ _ => True :=
    fun _ => .mono .name fun _ _ _ _ => trivial
  exact .bind (.separated hname) fun _ _ _ _ => .pure fun _ => trivial

theorem interfaces_reads : interfaces.Reads tokens c fun _ _ => True := by
  refine .seesWord ?_
  split
  · exact .bind .bump fun _ _ _ _ => names_reads _
  · exact .pure fun _ => trivial

theorem unionMembers_reads : unionMembers.Reads tokens c fun _ _ => True := by
  refine .bind .eat fun found c₁ _ _ => ?_
  split
  · exact names_reads _
  · exact .pure fun _ => trivial

theorem typeBody_reads (kind : TypeKind) (c : Cursor) :
    (typeBody kind).Reads tokens c fun x i =>
      Row tokens c.index (x.1.map .directive ++ x.2.phrases) i := by
  cases kind with
  | object =>
      refine .bind interfaces_reads fun shared c₁ _ h₁ => ?_
      refine .bind constantDirectives_reads fun uses c₂ huses _ => ?_
      refine .bind (members_reads fieldDefinition_reads)
        fun fields c₃ hfields _ => .pure fun _ => ?_
      exact (huses.append hfields).from_le h₁
  | interface =>
      refine .bind interfaces_reads fun shared c₁ _ h₁ => ?_
      refine .bind constantDirectives_reads fun uses c₂ huses _ => ?_
      refine .bind (members_reads fieldDefinition_reads)
        fun fields c₃ hfields _ => .pure fun _ => ?_
      exact (huses.append hfields).from_le h₁
  | union =>
      refine .bind constantDirectives_reads fun uses c₁ huses _ => ?_
      exact .bind unionMembers_reads fun shared c₂ _ h₂ => .pure fun _ => huses.append (.nil h₂)
  | enum =>
      refine .bind constantDirectives_reads fun uses c₁ huses _ => ?_
      refine .bind (members_reads enumValueDefinition_reads) fun values c₂ hvalues _ => ?_
      exact .pure fun _ => huses.append hvalues
  | scalar =>
      refine .bind constantDirectives_reads fun uses c₁ huses _ => .pure fun _ => ?_
      exact huses.append (.nil (Nat.le_refl _))
  | inputObject =>
      refine .bind constantDirectives_reads fun uses c₁ huses _ => ?_
      refine .bind (members_reads inputValueDefinition_reads) fun fields c₂ hfields _ => ?_
      exact .pure fun _ => huses.append hfields

theorem typeDefinition_reads (kind : TypeKind) :
    (typeDefinition kind).Reads tokens c fun d i => Row tokens c.index [.definition d] i := by
  refine .here (.bind description_reads fun about c₁ _ h₁ => .bind .bump fun _ c₂ hbump h₂ => ?_)
  refine .bind .name fun n? c₃ hname _ => ?_
  obtain ⟨n, rfl, htoken, hn, h₃⟩ := hname
  refine .bind (typeBody_reads kind c₃) fun x c₄ hx h₄ => ?_
  have hlead : c.index < n.token :=
    Nat.lt_of_le_of_lt h₁ (hn.lt_of_bump hbump h₂ (Nat.le_of_eq htoken.symm))
  have hlt : n.token < c₄.index := by omega
  refine .extentFrom (.pure fun _ => .whole rfl (.defined (Nat.lt_trans hlead hlt) ?_) ?_)
  · rintro _ ⟨⟩
    exact ⟨hn, hlead, hlt⟩
  · exact hx.from_le (by omega)

theorem typeExtension_reads (kind : TypeKind) :
    (typeExtension kind).Reads tokens c fun d i => Row tokens c.index [.definition d] i := by
  refine .here (.bind .bump fun _ c₁ hbump h₁ => .bind .bump fun _ c₂ _ h₂ => ?_)
  refine .bind .name fun n? c₃ hname _ => ?_
  obtain ⟨n, rfl, htoken, hn, h₃⟩ := hname
  refine .here (.bind (typeBody_reads kind c₃) fun x c₄ hx h₄ => .here ?_)
  split
  · exact .behindFault
  · have hlead : c.index < n.token := hn.lt_of_bump hbump h₁ (htoken ▸ h₂)
    have hlt : n.token < c₄.index := by omega
    refine .extentFrom (.pure fun _ => .whole rfl (.defined (Nat.lt_trans hlead hlt) ?_) ?_)
    · rintro _ ⟨⟩
      exact ⟨hn, hlead, hlt⟩
    · exact hx.from_le (by omega)

theorem rootOperation_reads (word : Name) (c : Cursor) :
    (rootOperation word).Reads tokens c fun _ _ => True := by
  unfold rootOperation
  dsimp only
  split
  · exact .behindFault
  · refine .bind .eat fun found c₁ _ _ => ?_
    split
    · exact .bind .name? fun _ _ _ _ => .pure fun _ => trivial
    · exact .behindFault

theorem rootOperations_reads : rootOperations.Reads tokens c fun _ _ => True := by
  have hroot : ∀ (word : Name) (c : Cursor), word.IsAmong tokens →
      c.index = word.token + 1 → (rootOperation word).Reads tokens c fun _ _ => True :=
    fun word c _ _ => rootOperation_reads word c
  refine .bind .eat fun found c₁ _ _ => ?_
  split
  · refine .bind (.manyNamed .anything hroot) fun roots c₂ _ _ => ?_
    exact .bind .expect fun _ _ _ _ => .pure fun _ => trivial
  · exact .pure fun _ => trivial

/-- A schema definition may have nothing but its keyword, so there has to be one. -/
theorem schemaDefinition_reads (hc : c.index < tokens.length) :
    schemaDefinition.Reads tokens c fun d i => Row tokens c.index [.definition d] i := by
  refine .here (.bind description_reads fun about c₁ _ h₁ => .bind .bump fun _ c₂ hbump h₂ => ?_)
  refine .bind constantDirectives_reads fun uses c₃ huses h₃ => .sees ?_
  refine .bind rootOperations_reads fun roots c₄ _ h₄ => ?_
  split
  · exact .behindFault
  · have hstop : c.index < c₄.index := by omega
    refine .extentFrom (.pure fun _ => .whole rfl (.defined hstop nofun) ?_)
    exact huses.widen (by omega) h₄

theorem schemaExtension_reads (hc : c.index < tokens.length) :
    schemaExtension.Reads tokens c fun d i => Row tokens c.index [.definition d] i := by
  refine .here (.bind .bump fun _ c₁ hbump h₁ => .bind .bump fun _ c₂ _ h₂ => ?_)
  refine .bind constantDirectives_reads fun uses c₃ huses h₃ => ?_
  refine .bind rootOperations_reads fun roots c₄ _ h₄ => ?_
  split
  · exact .behindFault
  · have hstop : c.index < c₄.index := by omega
    refine .extentFrom (.pure fun _ => .whole rfl (.defined hstop nofun) ?_)
    exact huses.widen (by omega) h₄

theorem directiveLocation_reads (c : Cursor) :
    directiveLocation.Reads tokens c fun _ _ => True := by
  refine .bind .name fun n c₁ _ _ => ?_
  dsimp only
  split
  · exact .behindFault
  · exact .pure fun _ => trivial

theorem directiveDefinition_reads :
    directiveDefinition.Reads tokens c fun d i => Row tokens c.index [.definition d] i := by
  have hplaces : ∀ (about : Option String) (n : Name) (takes : List InputValueDefinition)
      (isRepeatable : Bool) (c' : Cursor), n.IsAmong tokens → c.index < n.token →
      n.token < c'.index → Row tokens c.index (takes.map .inputValueDefinition) c'.index → (do
        let places ← separated .pipe directiveLocation
        return .directive ⟨← extentFrom c.index, about, some n, takes, isRepeatable,
          places.filterMap id⟩ : Production Definition).Reads tokens c'
        fun d i => Row tokens c.index [.definition d] i := by
    intro about n takes isRepeatable c' hn hlead hlt htakes
    refine .bind (.separated directiveLocation_reads) fun places c₁ _ h₁ => ?_
    have hlt' : n.token < c₁.index := Nat.lt_of_lt_of_le hlt h₁
    refine .extentFrom (.pure fun _ => .whole rfl (.defined (Nat.lt_trans hlead hlt') ?_) ?_)
    · rintro _ ⟨⟩
      exact ⟨hn, hlead, hlt'⟩
    · exact htakes.widen (Nat.le_refl _) h₁
  refine .here (.bind description_reads fun about c₁ _ h₁ => .bind .bump fun _ c₂ _ h₂ => ?_)
  refine .bind .expect fun _ c₃ h₃ _ => .bind .name fun n? c₄ hname _ => ?_
  obtain ⟨n, rfl, htoken, hn, h₄⟩ := hname
  refine .bind argumentDefinitions_reads fun takes c₅ htakes h₅ => .seesWord ?_
  have hlead : c.index < n.token := by omega
  split
  · refine .bind .bump fun _ c₆ _ h₆ => .seesWord ?_
    split
    · refine .bind .bump fun _ c₇ _ h₇ => hplaces about n takes _ c₇ hn hlead (by omega) ?_
      exact htakes.widen (by omega) (by omega)
    · exact .behindFault
  · refine .seesWord ?_
    split
    · refine .bind .bump fun _ c₇ _ h₇ => hplaces about n takes _ c₇ hn hlead (by omega) ?_
      exact htakes.widen (by omega) (by omega)
    · exact .behindFault

/-! ## Documents -/

/-- The keyword of a definition stands at its beginning or behind a description. -/
theorem leading_reads {isDescribed : Bool} {first : Option Token}
    {rest : Option Token → Production (Option Definition)} {good : Option Definition → Nat → Prop}
    (hnone : (rest none).Reads tokens c fun _ _ => False)
    (hrest : ∀ t, (rest t).Reads tokens c good) :
    ((if isDescribed then peekSecond else pure first) >>= rest).Reads tokens c good := by
  cases isDescribed with
  | true => exact .peekSecond hnone hrest
  | false => exact hrest first

theorem definition_reads (c : Cursor) :
    definition.Reads tokens c fun d? i =>
      ∃ d, d? = some d ∧ Row tokens c.index [.definition d] i := by
  have hstray : ∀ good : Option Definition → Nat → Prop, (do
      faultAndBump "a definition"
      return none : Production (Option Definition)).Reads tokens c good :=
    fun _ => .behindFaultAndBump
  refine .peek ?_
  cases hnext : c.next with
  | none => exact hstray _
  | some first =>
      refine .seen hnext fun htoken => leading_reads (hstray _) fun leading => ?_
      have hlt : c.index < tokens.length := (List.getElem?_eq_some_iff.mp htoken).1
      split
      · split
        · exact hstray _
        · exact .isSome shorthand_reads
      · split
        · exact .isSome (schemaDefinition_reads hlt)
        · exact .isSome directiveDefinition_reads
        · exact .isSome fragmentDefinition_reads
        · split
          · exact hstray _
          · refine .peekSecond (hstray _) fun second => ?_
            split
            · exact .isSome (schemaExtension_reads hlt)
            · split
              · exact .isSome (typeExtension_reads _)
              · exact hstray _
            · exact hstray _
        · split
          · exact .isSome (typeDefinition_reads _)
          · split
            · exact hstray _
            · exact .isSome (operation_reads _)
          · exact hstray _
      · exact hstray _

/-- Definitions that are read one after another stand one behind another. -/
theorem chain_definitions :
    Production.Chain (fun i d? j => ∃ d, d? = some d ∧ Row tokens i [.definition d] j)
      fun i ds j => Row tokens i ((ds.filterMap id).map .definition) j := by
  refine ⟨.nil, ?_⟩
  rintro i j k _ ds ⟨d, rfl, hd⟩ hds
  exact hd.append hds

/-- A document consists of its definitions, of which there is at least one. -/
theorem document_reads :
    document.Reads tokens c fun d i => Row tokens 0 [.document d] i := by
  refine .peek ?_
  cases hnext : c.next with
  | none => exact .behindFault
  | some first =>
      refine .bind (.many_cons hnext rfl chain_definitions definition_reads) fun ds c₁ hds _ => ?_
      obtain ⟨_, rest, j, rfl, ⟨d, rfl, hd⟩, hrest⟩ := hds
      refine .extentFrom (.pure fun _ => .whole rfl (.nameless ?_ rfl) ?_)
      · exact Nat.zero_lt_of_lt (Nat.lt_of_lt_of_le hd.lt_definition hrest.le)
      · exact (hd.append hrest).from_le (Nat.zero_le _)

end Grammar

end GraphLint
