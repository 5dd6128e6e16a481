import GraphLint.Proofs.Document.Reading

/-!
# Reading over commas

Commas are ignored, but for one thing: where the grammar looks two tokens ahead, it does
not look past a comma.  What it misses there it finds to be missing, so a text that is
read without a fault is read like the same text without its commas.

`Production.Reads` says this of one production from one cursor on, together with what
holds of what is read there.  It is a precondition: each rule says what is left to be
shown for a production that goes on.  A place to which an orderly reading comes is
orderly again, so it is only ever asked of the cursor that a production begins at.

A production may also end at a place where the text cannot go on.  `ReadsUnless` leaves
out such places; the fault comes later then.
-/

set_option autoImplicit false

namespace GraphLint

namespace Cursor

/-- The same place in a text without commas. -/
def withoutCommas (c : Cursor) : Cursor :=
  { c with ahead := c.ahead.map fun u => ⟨u.token, false⟩ }

/-- The token that comes next. -/
def next (c : Cursor) : Option Token := c.ahead[0]?.map (·.token)

@[simp] theorem next_withoutCommas (c : Cursor) : c.withoutCommas.next = c.next := by
  simp only [next, withoutCommas, List.getElem?_map, Option.map_map]
  rfl

/-- Nothing has gone wrong on the way here, in a text of these tokens. -/
structure Orderly (tokens : List Token) (c : Cursor) : Prop where
  /-- Reading goes on. -/
  isAbandoned : c.isAbandoned = false
  /-- All tokens belong to the text. -/
  discarded : c.discarded = []
  /-- The tokens that are not taken are ahead. -/
  ahead : c.ahead.map (·.token) = tokens.drop c.index
  /-- No more are taken than there are. -/
  index_le : c.index ≤ tokens.length

/-- The next token is the one that has the number of the place. -/
theorem Orderly.next {tokens : List Token} {c : Cursor} (h : c.Orderly tokens) :
    c.next = tokens[c.index]? := by
  rw [Cursor.next, ← List.getElem?_map, h.ahead, List.getElem?_drop, Nat.add_zero]

end Cursor

/-- A name is the token that its number tells. -/
def Name.IsAmong (tokens : List Token) (n : Name) : Prop :=
  tokens[n.token]? = some (.name n.text)

namespace Production

variable {α β γ : Type} {tokens : List Token} {c : Cursor} {stuck : Cursor → Prop}

/-- If no comma hides a punctuator behind the next token, commas do not matter to whether
it is there. -/
theorem beq_peekSecond {mark : Punctuator} (h : c.ahead[1]? ≠ some ⟨.punctuator mark, true⟩) :
    ((peekSecond.run c.withoutCommas).1 == some (.punctuator mark)) =
      ((peekSecond.run c).1 == some (.punctuator mark)) := by
  simp only [peekSecond, look, Cursor.withoutCommas, List.getElem?_map]
  cases hsecond : c.ahead[1]? with
  | none => rfl
  | some second =>
      obtain ⟨token, afterComma⟩ := second
      cases afterComma with
      | false => rfl
      | true =>
          have htoken : token ≠ .punctuator mark := by
            rintro rfl
            exact h hsecond
          simpa using htoken

/-- Commas make no difference to what a production reads from a cursor on and to how far
it comes.  What it reads is good, given the number of the token behind it. -/
structure ReadsAlike (tokens : List Token) (p : Production α) (c : Cursor) (good : α → Nat → Prop) :
    Prop where
  /-- The same is read without commas. -/
  withoutCommas : p.run c.withoutCommas = ((p.run c).1, (p.run c).2.withoutCommas)
  /-- Nothing goes wrong. -/
  orderly : (p.run c).2.Orderly tokens
  /-- What is read is good. -/
  good : good (p.run c).1 (p.run c).2.index

/-- If nothing has gone wrong and there is no fault in the end, commas make no difference,
unless the production comes to a place of some kind. -/
def ReadsUnless (tokens : List Token) (stuck : Cursor → Prop) (p : Production α) (c : Cursor)
    (good : α → Nat → Prop) : Prop :=
  c.Orderly tokens → (p.run c).2.faults = [] → p.ReadsAlike tokens c good ∨ stuck (p.run c).2

/-- If nothing has gone wrong and there is no fault in the end, commas make no difference
and what is read is good. -/
abbrev Reads (tokens : List Token) (p : Production α) (c : Cursor) (good : α → Nat → Prop) : Prop :=
  p.ReadsUnless tokens (fun _ => False) c good

/-- What holds of things between two places of a text makes up what holds of them one after
another. -/
structure Chain (good : Nat → α → Nat → Prop) (chain : Nat → List α → Nat → Prop) : Prop where
  /-- There may be room where there is nothing. -/
  nil {i j : Nat} (h : i ≤ j) : chain i [] j
  /-- One more comes first. -/
  cons {i j k : Nat} {a : α} {as : List α} (ha : good i a j) (has : chain j as k) :
    chain i (a :: as) k

theorem Chain.anything : Chain (fun _ (_ : α) _ => True) fun _ _ _ => True :=
  ⟨fun _ => trivial, fun _ _ => trivial⟩

namespace ReadsUnless

variable {p : Production α} {f : α → Production β} {good good' : α → Nat → Prop}
  {goal : β → Nat → Prop}

theorem alike (h : p.Reads tokens c good) (hc : c.Orderly tokens)
    (hfaults : (p.run c).2.faults = []) : p.ReadsAlike tokens c good := (h hc hfaults).resolve_right id

theorem weaken (h : p.Reads tokens c good) : p.ReadsUnless tokens stuck c good :=
  fun hc hfaults => .inl (h.alike hc hfaults)

theorem mono (h : p.ReadsUnless tokens stuck c good)
    (hgood : ∀ a i, c.index ≤ i → good a i → good' a i) : p.ReadsUnless tokens stuck c good' := by
  intro hc hfaults
  refine (h hc hfaults).imp_left fun ha => ⟨ha.withoutCommas, ha.orderly, ?_⟩
  exact hgood _ _ (p.forward c) ha.good

/-! ## One thing after another -/

/-- What is read behind a production begins somewhere behind it.  Where the production gets
stuck, what is read behind it has to get stuck as well. -/
theorem bind_unless {stuck' : Cursor → Prop} (hp : p.ReadsUnless tokens stuck c good)
    (hstuck : ∀ a c', c'.isAbandoned = false → stuck c' → ((f a).run c').2.faults = [] →
      stuck' ((f a).run c').2)
    (hf : ∀ a c', good a c'.index → c.index ≤ c'.index →
      (f a).ReadsUnless tokens stuck' c' goal) :
    (p >>= f).ReadsUnless tokens stuck' c goal := by
  intro hc hfaults
  rw [run_bind] at hfaults
  have hbefore : (p.run c).2.faults = [] := ((f _).leads _).faults hfaults
  rcases hp hc hbefore with ha | hs
  · refine (hf _ _ ha.good (p.forward c) ha.orderly hfaults).imp_left
      fun hb => ⟨?_, hb.orderly, hb.good⟩
    rw [run_bind, run_bind, ha.withoutCommas]
    exact hb.withoutCommas
  · exact .inr (hstuck _ _ (Ensures.faultless hc.isAbandoned hbefore) hs hfaults)

theorem bind (hp : p.Reads tokens c good)
    (hf : ∀ a c', good a c'.index → c.index ≤ c'.index →
      (f a).ReadsUnless tokens stuck c' goal) :
    (p >>= f).ReadsUnless tokens stuck c goal :=
  bind_unless hp (fun _ _ _ h => h.elim) hf

theorem pure {a : α} (h : c.index ≤ tokens.length → good a c.index) :
    (pure a : Production α).ReadsUnless tokens stuck c good :=
  fun hc _ => .inl ⟨rfl, hc, h hc.index_le⟩

/-- What is read is what is found. -/
theorem isSome (hp : p.Reads tokens c good) :
    (p >>= fun a => Pure.pure (some a)).Reads tokens c fun a? i =>
      ∃ a, a? = some a ∧ good a i :=
  bind hp fun a _ ha _ => pure fun _ => ⟨a, rfl, ha⟩

/-! ## Looking -/

/-- Looking moves nothing.  What is seen may depend on commas, if what is done then does
not. -/
theorem look {g : Cursor → α} (hg : f (g c.withoutCommas) = f (g c))
    (hf : (f (g c)).ReadsUnless tokens stuck c goal) :
    (Production.look g >>= f).ReadsUnless tokens stuck c goal := by
  intro hc hfaults
  refine (hf hc hfaults).imp_left fun ha => ⟨?_, ha.orderly, ha.good⟩
  show (f (g c.withoutCommas)).run c.withoutCommas = _
  rw [hg]
  exact ha.withoutCommas

theorem here {f : Nat → Production β} (hf : (f c.index).ReadsUnless tokens stuck c goal) :
    (Production.here >>= f).ReadsUnless tokens stuck c goal := look rfl hf

theorem remaining {f : Nat → Production β}
    (hf : (f c.ahead.length).ReadsUnless tokens stuck c goal) :
    (Production.remaining >>= f).ReadsUnless tokens stuck c goal :=
  look (congrArg f (List.length_map _)) hf

theorem peek {f : Option Token → Production β} (hf : (f c.next).ReadsUnless tokens stuck c goal) :
    (Production.peek >>= f).ReadsUnless tokens stuck c goal :=
  look (congrArg f c.next_withoutCommas) hf

theorem sees {mark : Punctuator} {f : Bool → Production β}
    (hf : (f (c.next == some (.punctuator mark))).ReadsUnless tokens stuck c goal) :
    (Production.sees mark >>= f).ReadsUnless tokens stuck c goal :=
  peek (f := fun t => f (t == some (.punctuator mark))) hf

theorem seesWord {word : String} {f : Bool → Production β}
    (hf : (f (c.next == some (.name word))).ReadsUnless tokens stuck c goal) :
    (Production.seesWord word >>= f).ReadsUnless tokens stuck c goal :=
  peek (f := fun t => f (t == some (.name word))) hf

theorem extentFrom {start : Nat} {f : Extent → Production β}
    (hf : (f ⟨start, c.index⟩).ReadsUnless tokens stuck c goal) :
    (Production.extentFrom start >>= f).ReadsUnless tokens stuck c goal :=
  here (f := fun i => f ⟨start, i⟩) hf

/-- Where a comma hides the token that is looked for, reading must come to a fault. -/
theorem peekSecond {f : Option Token → Production β}
    (hnone : (f none).Reads tokens c fun _ _ => False) (hf : ∀ t, (f t).ReadsUnless tokens stuck c goal) :
    (Production.peekSecond >>= f).ReadsUnless tokens stuck c goal := by
  cases hsecond : c.ahead[1]? with
  | none =>
      refine look ?_ (hf _)
      simp only [Cursor.withoutCommas, List.getElem?_map, hsecond]
      rfl
  | some second =>
      obtain ⟨token, afterComma⟩ := second
      cases afterComma with
      | false =>
          refine look ?_ (hf _)
          simp only [Cursor.withoutCommas, List.getElem?_map, hsecond]
          rfl
      | true =>
          intro hc hfaults
          have hrun : (Production.peekSecond >>= f).run c = (f none).run c := by
            rw [run_bind]
            simp only [Production.peekSecond, Production.look, hsecond]
            rfl
          rw [hrun] at hfaults
          exact (hnone.alike hc hfaults).good.elim

/-- What stands behind the next token may matter even so, if it does not matter whether a
comma stands before it. -/
theorem second {f : Option Token → Production β}
    (hsecond : f (Production.peekSecond.run c.withoutCommas).1 = f (Production.peekSecond.run c).1)
    (hf : (f (Production.peekSecond.run c).1).ReadsUnless tokens stuck c goal) :
    (Production.peekSecond >>= f).ReadsUnless tokens stuck c goal := look hsecond hf

/-! ## Faults -/

/-- Of a reading that comes to a fault nothing has to be shown. -/
theorem fault {expected : String} {good : Unit → Nat → Prop} :
    (Production.fault expected).ReadsUnless tokens stuck c good :=
  fun hc hfaults => absurd hfaults (c.noting_ne_nil hc.isAbandoned expected)

theorem behindFault {expected : String} {f : Unit → Production β} :
    (Production.fault expected >>= f).ReadsUnless tokens stuck c goal := by
  have hfalse : (Production.fault expected).Reads tokens c fun _ _ => False := fault
  exact bind hfalse fun _ _ h => h.elim

theorem behindFaultAndBump {expected : String} {f : Unit → Production β} :
    (Production.faultAndBump expected >>= f).ReadsUnless tokens stuck c goal :=
  behindFault (f := fun _ => Production.bump >>= f)

theorem behindAbandon {expected : String} {f : Unit → Production β} :
    (Production.abandon expected >>= f).ReadsUnless tokens stuck c goal := by
  have hfalse : (Production.abandon expected).Reads tokens c fun _ _ => False :=
    fun hc hfaults => absurd hfaults (c.noting_ne_nil hc.isAbandoned expected)
  exact bind hfalse fun _ _ h => h.elim

/-! ## Taking -/

/-- A token is taken unless there is none left. -/
theorem bump : Production.bump.Reads tokens c fun _ i =>
    i = c.index + 1 ∨ tokens.length ≤ c.index := by
  obtain ⟨ahead, index, discarded, faults, isAbandoned⟩ := c
  intro hc _
  have hahead : ahead.map (·.token) = tokens.drop index := hc.ahead
  cases ahead with
  | nil => exact .inl ⟨rfl, hc, .inr (List.drop_eq_nil_iff.mp hahead.symm)⟩
  | cons u ahead =>
      have hlt : index < tokens.length := by
        have hlength := congrArg List.length hahead
        rw [List.map_cons, List.length_cons, List.length_drop] at hlength
        omega
      have hrest : ahead.map (·.token) = tokens.drop (index + 1) := by
        rw [List.drop_eq_getElem_cons hlt, List.map_cons] at hahead
        exact (List.cons.inj hahead).2
      exact .inl ⟨rfl, ⟨hc.isAbandoned, hc.discarded, hrest, hlt⟩, .inl rfl⟩

/-- What has been seen to come next is the token with the number of the place. -/
theorem seen {t : Token} (hnext : c.next = some t)
    (h : tokens[c.index]? = some t → p.ReadsUnless tokens stuck c good) :
    p.ReadsUnless tokens stuck c good :=
  fun hc => h (hc.next ▸ hnext) hc

/-- The token that has been seen to come next is taken. -/
theorem take {t : Token} {f : Unit → Production β} (hnext : c.next = some t)
    (hf : ∀ c', tokens[c.index]? = some t → c'.index = c.index + 1 →
      (f ()).ReadsUnless tokens stuck c' goal) :
    (Production.bump >>= f).ReadsUnless tokens stuck c goal :=
  seen hnext fun ht => bind bump fun _ c' hbump _ => hf c' ht <| hbump.resolve_right <|
    Nat.not_le.mpr (List.getElem?_eq_some_iff.mp ht).1

theorem eat {mark : Punctuator} :
    (Production.eat mark).Reads tokens c fun found i => found = true → c.index < i := by
  refine .sees ?_
  split
  · next hsees =>
      exact .take (eq_of_beq hsees) fun c' _ hc' => .pure fun _ _ => hc' ▸ Nat.lt_succ_self _
  · exact .pure fun _ h => nomatch h

theorem expect {mark : Punctuator} :
    (Production.expect mark).Reads tokens c fun _ i => c.index < i := by
  refine .bind .eat fun found c' hfound _ => ?_
  cases found with
  | true => exact .pure fun _ => hfound rfl
  | false => exact .fault

theorem name? : Production.name?.Reads tokens c fun n? i =>
    ∀ n, n? = some n → n.token = c.index ∧ n.IsAmong tokens ∧ i = c.index + 1 := by
  refine .peek ?_
  split
  · next text hnext =>
      refine .here (.take hnext fun c' ht hc' => .pure ?_)
      rintro - n ⟨⟩
      exact ⟨rfl, ht, hc'⟩
  · exact .pure fun _ n h => nomatch h

theorem name : Production.name.Reads tokens c fun n? i =>
    ∃ n, n? = some n ∧ n.token = c.index ∧ n.IsAmong tokens ∧ i = c.index + 1 := by
  refine .bind .name? fun n? c' hname _ => ?_
  cases n? with
  | some n => exact .pure fun _ => ⟨n, rfl, hname n rfl⟩
  | none => exact .behindFault

/-! ## Repetition -/

section

variable {more : Token → Bool} {good : Nat → α → Nat → Prop} {chain : Nat → List α → Nat → Prop}

theorem manyWithin (hchain : Chain good chain) (hp : ∀ c, p.Reads tokens c (good c.index)) :
    ∀ (bound : Nat) (c : Cursor), (manyWithin more p bound).Reads tokens c (chain c.index)
  | 0, c => .pure fun _ => hchain.nil (Nat.le_refl _)
  | bound + 1, c => by
      refine .peek ?_
      split
      · split
        · refine .bind (hp c) fun a c' ha _ => ?_
          refine .bind (manyWithin hchain hp bound c') fun as c'' has _ => ?_
          exact .pure fun _ => hchain.cons ha has
        · exact .pure fun _ => hchain.nil (Nat.le_refl _)
      · exact .pure fun _ => hchain.nil (Nat.le_refl _)

theorem many (hchain : Chain good chain) (hp : ∀ c, p.Reads tokens c (good c.index)) :
    (many more p).Reads tokens c (chain c.index) :=
  .remaining (manyWithin hchain hp _ c)

/-- Where one more item comes next there is at least one. -/
theorem many_cons {t : Token} (hnext : c.next = some t) (ht : more t = true)
    (hchain : Chain good chain) (hp : ∀ c, p.Reads tokens c (good c.index)) :
    (Production.many more p).Reads tokens c fun as k =>
      ∃ a rest j, as = a :: rest ∧ good c.index a j ∧ chain j rest k := by
  obtain ⟨bound, hbound⟩ : ∃ bound, c.ahead.length = bound + 1 := by
    cases hahead : c.ahead with
    | nil =>
        rw [Cursor.next, hahead] at hnext
        cases hnext
    | cons u ahead => exact ⟨ahead.length, rfl⟩
  refine .remaining ?_
  rw [hbound]
  refine .peek ?_
  rw [hnext]
  dsimp only
  rw [if_pos ht]
  refine .bind (hp c) fun a c₁ ha _ => .bind (manyWithin hchain hp bound c₁) fun as c₂ has _ => ?_
  exact .pure fun _ => ⟨a, as, c₁.index, rfl, ha, has⟩

variable {item : Name → Production α}

/-- An item begins at its name. -/
theorem manyNamedWithin (hchain : Chain good chain)
    (hitem : ∀ n c, n.IsAmong tokens → c.index = n.token + 1 →
      (item n).Reads tokens c (good n.token)) :
    ∀ (bound : Nat) (c : Cursor), (manyNamedWithin item bound).Reads tokens c (chain c.index)
  | 0, c => .pure fun _ => hchain.nil (Nat.le_refl _)
  | bound + 1, c => by
      refine .bind .name? fun n? c₁ hname hle => ?_
      cases n? with
      | none => exact .pure fun _ => hchain.nil hle
      | some n =>
          obtain ⟨htoken, hamong, hc₁⟩ := hname n rfl
          refine .bind (hitem n c₁ hamong (htoken ▸ hc₁)) fun a c₂ ha _ => ?_
          refine .bind (manyNamedWithin hchain hitem bound c₂) fun as c₃ has _ => ?_
          exact .pure fun _ => htoken ▸ hchain.cons ha has

theorem manyNamed (hchain : Chain good chain)
    (hitem : ∀ n c, n.IsAmong tokens → c.index = n.token + 1 →
      (item n).Reads tokens c (good n.token)) :
    (manyNamed item).Reads tokens c (chain c.index) :=
  .remaining (manyNamedWithin hchain hitem _ c)

/-- Of items with a punctuator between them nothing is kept but that they are read. -/
theorem separated {mark : Punctuator} (hp : ∀ c, p.Reads tokens c fun _ _ => True) :
    (separated mark p).Reads tokens c fun _ _ => True := by
  have hothers : ∀ c, (Production.bump >>= fun _ => p).Reads tokens c fun _ _ => True :=
    fun c => .bind .bump fun _ c' _ _ => hp c'
  refine .bind .eat fun _ c₁ _ _ => .bind (hp c₁) fun a c₂ ha _ => ?_
  exact .bind (many .anything hothers) fun as c₃ _ _ => .pure fun _ => trivial

end

end ReadsUnless

end Production

end GraphLint
