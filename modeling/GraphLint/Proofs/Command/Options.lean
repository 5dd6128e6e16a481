import GraphLint.Proofs.Command.Stages
import GraphLint.Proofs.Data.Lists

/-!
# Options about the output

Some options say how output is to look, and nothing else.  A command line that is accepted
is also accepted without them, and is about the same task (`ofWords_of_inserted`).

Words are read one by one, and a value is looked at later than it is read.  Two readings of
which one meets more options than the other may therefore differ in what they have looked
at.  `Richer` compares what they come to when they look at it: if the one with more options
gets on, the other does, and it is given the same apart from the output.  Each word keeps
it that way, and so does an option that only one of them meets.
-/

set_option autoImplicit false

namespace GraphLint.Arguments

/-! ## Readings that may fail -/

/-- If one computation answers, so does the other, with something related. -/
def Carries {α β : Type} (R : α → β → Prop) (x : Except Stop α) (y : Except Stop β) : Prop :=
  ∀ a, x = .ok a → ∃ b, y = .ok b ∧ R a b

namespace Carries

variable {α β γ δ : Type} {R : α → β → Prop} {S : γ → δ → Prop}
variable {x : Except Stop α} {y : Except Stop β}

theorem ok {a : α} {b : β} (h : R a b) : Carries R (.ok a) (.ok b) := by
  rintro _ ⟨⟩
  exact ⟨b, rfl, h⟩

theorem error (e : Stop) : Carries R (.error e) y := nofun

theorem bind (h : Carries R x y) {f : α → Except Stop γ} {g : β → Except Stop δ}
    (hfg : ∀ a b, R a b → Carries S (f a) (g b)) : Carries S (x >>= f) (y >>= g) := by
  intro c hc
  obtain ⟨a, ha, hfa⟩ := exists_of_bind_eq_ok hc
  obtain ⟨b, rfl, hab⟩ := h a ha
  exact hfg a b hab c hfa

end Carries

/-! ## What is given -/

namespace Given

/-- What is given exceeds what else is given in nothing but what concerns the output, and
all values have been looked at. -/
structure Exceeds (g g' : Given) : Prop where
  switches : g'.switches ⊆ g.switches
  config : g'.config = g.config
  format : g'.format.isSome → g.format.isSome
  schemas : g'.schemas = g.schemas
  inputs : g'.inputs = g.inputs
  settled : g.pending = none
  settled' : g'.pending = none

/-- If all values can be looked at, so can those of what else is given, and there are more
only in what concerns the output. -/
def Richer (g g' : Given) : Prop := Carries Exceeds g.settle g'.settle

variable {g g' g'' : Given}

theorem pending_of_accept {s : Setting} {value : String} {r : Given}
    (h : g.accept s value = .ok r) : r.pending = g.pending := by
  cases s with
  | config =>
      dsimp only [accept] at h
      split at h
      · cases h
      · split at h <;> cases h
        rfl
  | format =>
      dsimp only [accept] at h
      split at h
      · cases h
      · split at h <;> cases h
        rfl
  | schema =>
      dsimp only [accept] at h
      split at h <;> cases h
      rfl

/-- When all values have been looked at, none is put off. -/
theorem pending_of_settle {r : Given} (h : g.settle = .ok r) : r.pending = none := by
  unfold settle at h
  split at h
  · exact pending_of_accept h
  · cases h
    assumption

theorem settle_of_pending (h : g.pending = none) : g.settle = .ok g := by
  rw [settle, h]

/-- A value that is put off is looked at with all the others. -/
theorem settle_putOff (hg : g.pending = none) (s : Setting) (value : String) :
    settle { g with pending := some (s, value) } = g.accept s value := by
  have hsettled : { g with pending := none } = g := by rw [← hg]
  show accept { g with pending := none } s value = _
  rw [hsettled]

namespace Exceeds

theorem refl (hg : g.pending = none) : g.Exceeds g :=
  ⟨List.Subset.refl _, rfl, id, rfl, rfl, hg, hg⟩

theorem trans (h : g.Exceeds g') (h' : g'.Exceeds g'') : g.Exceeds g'' :=
  ⟨List.Subset.trans h'.switches h.switches, h'.config.trans h.config,
    fun hg => h.format (h'.format hg), h'.schemas.trans h.schemas, h'.inputs.trans h.inputs,
    h.settled, h'.settled'⟩

theorem richer (h : g.Exceeds g') : g.Richer g' := by
  rw [Richer, settle_of_pending h.settled, settle_of_pending h.settled']
  exact .ok h

end Exceeds

/-- A format concerns the output. -/
theorem exceeds_of_accept_format {value : String} {r : Given} (hg : g.pending = none)
    (h : g.accept .format value = .ok r) : r.Exceeds g := by
  dsimp only [accept] at h
  split at h
  · cases h
  · split at h
    · cases h
      exact { Exceeds.refl hg with format := fun _ => rfl }
    · cases h

/-- A switch concerns the output. -/
theorem exceeds_of_turnOn {s : Switch} {r : Given} (hg : g.pending = none)
    (h : g.turnOn s = .ok r) : r.Exceeds g := by
  unfold turnOn at h
  split at h
  · cases h
  · cases h
    exact { Exceeds.refl hg with switches := List.subset_cons_self _ _ }

namespace Exceeds

theorem accept (h : g.Exceeds g') (s : Setting) (value : String) :
    Carries Exceeds (g.accept s value) (g'.accept s value) := by
  cases s with
  | config =>
      dsimp only [Given.accept]
      rw [h.config]
      split
      · exact .error _
      · split
        · exact .error _
        · exact .ok { h with config := rfl }
  | format =>
      dsimp only [Given.accept]
      split
      · exact .error _
      · next hnone =>
          rw [if_neg fun hsome => hnone (h.format hsome)]
          split
          · exact .ok { h with format := fun _ => rfl }
          · exact .error _
  | schema =>
      dsimp only [Given.accept]
      rw [h.schemas]
      split
      · exact .error _
      · exact .ok { h with schemas := rfl }

theorem turnOn (h : g.Exceeds g') (s : Switch) :
    Carries Exceeds (g.turnOn s) (g'.turnOn s) := by
  unfold Given.turnOn
  split
  · exact .error _
  · next hnew =>
      rw [if_neg fun hold => hnew (h.switches hold)]
      exact .ok { h with switches := List.cons_subset_cons s h.switches }

/-- A value is put off. -/
theorem putOff (h : g.Exceeds g') (s : Setting) (value : String) :
    Richer { g with pending := some (s, value) } { g' with pending := some (s, value) } := by
  rw [Richer, settle_putOff h.settled, settle_putOff h.settled']
  exact h.accept s value

/-- More inputs are given. -/
theorem addInputs (h : g.Exceeds g') (words : List String) :
    Exceeds { g with inputs := g.inputs ++ words } { g' with inputs := g'.inputs ++ words } :=
  { h with inputs := congrArg (· ++ words) h.inputs }

end Exceeds

/-- More is given when all values are looked at, and more than that afterwards. -/
theorem Richer.of_exceeds {r q : Given} (h : g.Richer g') (hr : g.settle = .ok r)
    (hq : q.Exceeds r) : q.Richer g' := by
  intro a ha
  rw [settle_of_pending hq.settled] at ha
  cases ha
  obtain ⟨b, hb, hrb⟩ := h r hr
  exact ⟨b, hb, hq.trans hrb⟩

end Given

/-- What is handed on behind an option, which may need a value yet. -/
structure TakenRicher (p p' : Given × Option Setting) : Prop where
  given : p.1.Exceeds p'.1
  needed : p'.2 = p.2

section

variable {command : Option CommandName} {g g' : Given}

/-- Two readings of one option. -/
theorem Given.Richer.take (h : g.Richer g') (name : String) (flag : Flag)
    (attached : Option String) :
    Carries TakenRicher (g.take name flag attached) (g'.take name flag attached) := by
  unfold Given.take
  split
  · next s value =>
      refine .bind h fun r r' hr => .bind (hr.accept s value) fun q q' hq => ?_
      exact .ok ⟨hq, rfl⟩
  · exact .bind h fun r r' hr => .ok ⟨hr, rfl⟩
  · exact .error _
  · next s => exact .bind h fun r r' hr => .bind (hr.turnOn s) fun q q' hq => .ok ⟨hq, rfl⟩
  · exact .bind h fun _ _ _ => .error _
  · exact .bind h fun _ _ _ => .error _

/-- Two readings of the short options of a word. -/
theorem takeLetters_carries (h : g.Richer g') {letters : List Char} (hletters : letters ≠ []) :
    Carries TakenRicher (takeLetters command g letters) (takeLetters command g' letters) := by
  induction letters generalizing g g' with
  | nil => exact absurd rfl hletters
  | cons c cs ih =>
      unfold takeLetters
      dsimp only
      split
      · exact .error _
      · exact h.take _ _ _
      · refine .bind (h.take _ _ _) fun p p' hp => ?_
        cases cs with
        | nil => exact .ok ⟨hp.given, rfl⟩
        | cons d cs => exact ih hp.given.richer (List.cons_ne_nil _ _)

end

/-! ## Options that are put in -/

/-- Options that say how output is to look. -/
def outputOptions : List (List String) :=
  [["--quiet"], ["--color"], ["--no-color"], ["--format=human"], ["--format=json"],
   ["--format", "human"], ["--format", "json"]]

/-- Words with options about the output put in, anywhere before the end of all options. -/
inductive Inserted : List String → List String → Prop
  /-- There are no words. -/
  | nil : Inserted [] []
  /-- The words behind the end of all options stay what they are. -/
  | terminator {word : String} (h : Shape.ofWord word = .terminator) (words : List String) :
    Inserted (word :: words) (word :: words)
  /-- A word stays what it is. -/
  | word {word : String} {words words' : List String} (h : Shape.ofWord word ≠ .terminator)
    (rest : Inserted words words') : Inserted (word :: words) (word :: words')
  /-- An option is put in. -/
  | option {option words words' : List String} (h : option ∈ outputOptions)
    (rest : Inserted words words') : Inserted (option ++ words) words'

/-- An option that is put in begins with a word of its own. -/
theorem exists_of_mem_outputOptions {option : List String} (h : option ∈ outputOptions) :
    ∃ word words, option = word :: words ∧ Shape.ofWord word ≠ .plain := by
  have hall : ∀ option ∈ outputOptions, option ≠ [] ∧ ∀ word ∈ option.head?,
      Shape.ofWord word ≠ .plain := by decide +kernel
  obtain ⟨hne, hhead⟩ := hall option h
  obtain ⟨word, words, rfl⟩ := List.exists_cons_of_ne_nil hne
  exact ⟨word, words, rfl, hhead word rfl⟩

/-- A plain word has not been put in. -/
theorem Inserted.of_plain {value : String} {words words' : List String}
    (h : Inserted (value :: words) words') (hvalue : Shape.ofWord value = .plain) :
    ∃ rest, words' = value :: rest ∧ Inserted words rest := by
  generalize hall : value :: words = all at h
  cases h with
  | nil => cases hall
  | terminator hend _ =>
      cases hall
      rw [hvalue] at hend
      cases hend
  | word _ rest =>
      cases hall
      exact ⟨_, rfl, rest⟩
  | option hoption _ =>
      obtain ⟨word, _, rfl, hword⟩ := exists_of_mem_outputOptions hoption
      cases hall
      exact absurd hvalue hword

/-- What is handed on from one side of a command's name to the other. -/
inductive SideRicher : Option CommandName → Given × List String → Given × List String → Prop
  /-- There are no more words. -/
  | done {command : Option CommandName} {g g' : Given} (given : g.Exceeds g') :
    SideRicher command (g, []) (g', [])
  /-- The command's name has been met. -/
  | name {g g' : Given} {name : String} {words words' : List String} (given : g.Richer g')
    (rest : Inserted words words') : SideRicher none (g, name :: words) (g', name :: words')

/-! ## Reading an option that is put in -/

/-- A reading that goes on behind an option has all the option needs. -/
theorem go_eq_ok {command : Option CommandName} {words : List String}
    {taken : Except Stop (Given × Option Setting)} {a : Given × List String}
    (h : readSide.go command words taken = .ok a) :
    (∃ q, taken = .ok (q, none) ∧ readSide command q words = .ok a) ∨
      ∃ q s value rest, taken = .ok (q, some s) ∧ words = value :: rest ∧
        Shape.ofWord value = .plain ∧
        readSide command { q with pending := some (s, value) } rest = .ok a := by
  unfold readSide.go at h
  cases taken with
  | error e => cases h
  | ok p =>
      obtain ⟨q, needed⟩ := p
      cases needed with
      | none => exact .inl ⟨q, rfl, h⟩
      | some s =>
          cases words with
          | nil => cases h
          | cons value rest =>
              dsimp only at h
              split at h
              · exact .inr ⟨q, s, value, rest, rfl, rfl, ‹_›, h⟩
              · cases h

section

variable {command : Option CommandName} {g g' : Given} {words : List String}
variable {a : Given × List String}

theorem readSide_long {word name : String} {attached : Option String} {flag : Flag}
    (hshape : Shape.ofWord word = .long name attached)
    (hflag : longFlag? command name = some flag) :
    readSide command g (word :: words) =
      readSide.go command words (g.take ("--" ++ name) flag attached) := by
  rw [readSide.eq_def]
  dsimp only
  rw [hshape]
  dsimp only
  rw [hflag]

/-- An option that needs no more words leaves what it does not change. -/
theorem exists_of_readSide_long (h : g.Richer g') {word name : String} {attached : Option String}
    {flag : Flag} (hshape : Shape.ofWord word = .long name attached)
    (hflag : longFlag? command name = some flag)
    (htake : ∀ p, g.take ("--" ++ name) flag attached = .ok p →
      ∃ r, g.settle = .ok r ∧ p.1.Exceeds r ∧ p.2 = none)
    (ha : readSide command g (word :: words) = .ok a) :
    ∃ q, readSide command q words = .ok a ∧ q.Richer g' := by
  rw [readSide_long hshape hflag] at ha
  rcases go_eq_ok ha with ⟨q, hq, hrest⟩ | ⟨q, _, _, _, hq, -⟩
  · obtain ⟨r, hr, hmore, -⟩ := htake _ hq
    exact ⟨q, hrest, h.of_exceeds hr hmore⟩
  · obtain ⟨_, _, _, hnone⟩ := htake _ hq
    cases hnone

/-- A switch concerns the output. -/
theorem exists_of_readSide_switch (h : g.Richer g') {word name : String} {s : Switch}
    (hshape : Shape.ofWord word = .long name none)
    (hflag : longFlag? command name = some (.switch s))
    (ha : readSide command g (word :: words) = .ok a) :
    ∃ q, readSide command q words = .ok a ∧ q.Richer g' := by
  refine exists_of_readSide_long h hshape hflag (fun p hp => ?_) ha
  obtain ⟨r, hr, hrest⟩ := exists_of_bind_eq_ok hp
  obtain ⟨q, hq, hend⟩ := exists_of_bind_eq_ok hrest
  cases hend
  exact ⟨r, hr, Given.exceeds_of_turnOn (Given.pending_of_settle hr) hq, rfl⟩

/-- So does a format whose value is in its word. -/
theorem exists_of_readSide_format (h : g.Richer g') {word value : String}
    (hshape : Shape.ofWord word = .long "format" (some value))
    (ha : readSide command g (word :: words) = .ok a) :
    ∃ q, readSide command q words = .ok a ∧ q.Richer g' := by
  refine exists_of_readSide_long h hshape rfl (fun p hp => ?_) ha
  obtain ⟨r, hr, hrest⟩ := exists_of_bind_eq_ok hp
  obtain ⟨q, hq, hend⟩ := exists_of_bind_eq_ok hrest
  cases hend
  exact ⟨r, hr, Given.exceeds_of_accept_format (Given.pending_of_settle hr) hq, rfl⟩

/-- So does a format whose value is the next word, which is put off. -/
theorem exists_of_readSide_format_next (h : g.Richer g') {value : String}
    (ha : readSide command g ("--format" :: value :: words) = .ok a) :
    ∃ q, readSide command q words = .ok a ∧ q.Richer g' := by
  have hshape : Shape.ofWord "--format" = .long "format" none := by decide +kernel
  rw [readSide_long hshape rfl] at ha
  rcases go_eq_ok ha with ⟨q, hq, -⟩ | ⟨r, s, _, _, hr, hwords, -, hrest⟩
  · obtain ⟨_, _, hend⟩ := exists_of_bind_eq_ok hq
    cases hend
  · obtain ⟨r', hsettle, hend⟩ := exists_of_bind_eq_ok hr
    cases hend
    cases hwords
    refine ⟨_, hrest, fun b hb => ?_⟩
    have hpending := Given.pending_of_settle hsettle
    rw [Given.settle_putOff hpending] at hb
    obtain ⟨c, hc, hmore⟩ := h r hsettle
    exact ⟨c, hc, (Given.exceeds_of_accept_format hpending hb).trans hmore⟩

/-- Options that are put in leave what does not concern the output. -/
theorem exists_of_readSide_option (h : g.Richer g') {option : List String}
    (hoption : option ∈ outputOptions) (ha : readSide command g (option ++ words) = .ok a) :
    ∃ q, readSide command q words = .ok a ∧ q.Richer g' := by
  simp only [outputOptions, List.mem_cons, List.not_mem_nil, or_false] at hoption
  have hquiet : Shape.ofWord "--quiet" = .long "quiet" none := by decide +kernel
  have hcolour : Shape.ofWord "--color" = .long "color" none := by decide +kernel
  have hplain : Shape.ofWord "--no-color" = .long "no-color" none := by decide +kernel
  have hhuman : Shape.ofWord "--format=human" = .long "format" (some "human") := by decide +kernel
  have hjson : Shape.ofWord "--format=json" = .long "format" (some "json") := by decide +kernel
  rcases hoption with rfl | rfl | rfl | rfl | rfl | rfl | rfl
  · exact exists_of_readSide_switch h hquiet rfl ha
  · exact exists_of_readSide_switch h hcolour rfl ha
  · exact exists_of_readSide_switch h hplain rfl ha
  · exact exists_of_readSide_format h hhuman ha
  · exact exists_of_readSide_format h hjson ha
  · exact exists_of_readSide_format_next h ha
  · exact exists_of_readSide_format_next h ha

end

/-! ## Reading all words -/

theorem letters_ne_nil {word : String} {letters : List Char}
    (h : Shape.ofWord word = .short letters) : letters ≠ [] := by
  unfold Shape.ofWord at h
  split at h
  · cases h
  · cases h
  · cases h
    exact List.cons_ne_nil _ _
  · cases h

section

variable {command : Option CommandName} {words words' : List String}

/-- Two readings of what follows an option, if fewer words can be read twice. -/
theorem go_carries (hinserted : Inserted words words')
    (hread : ∀ {rest rest' : List String}, rest.length ≤ words.length → Inserted rest rest' →
      ∀ {r r' : Given}, r.Richer r' →
        Carries (SideRicher command) (readSide command r rest) (readSide command r' rest'))
    {taken taken' : Except Stop (Given × Option Setting)} (h : Carries TakenRicher taken taken') :
    Carries (SideRicher command) (readSide.go command words taken)
      (readSide.go command words' taken') := by
  intro a ha
  rcases go_eq_ok ha with ⟨q, hq, hrest⟩ | ⟨q, s, value, rest, hq, hwords, hvalue, hrest⟩
  · obtain ⟨⟨q', _⟩, rfl, hmore, rfl⟩ := h _ hq
    rw [readSide.go.eq_def]
    exact hread (Nat.le_refl _) hinserted hmore.richer a hrest
  · obtain ⟨⟨q', _⟩, rfl, hmore, rfl⟩ := h _ hq
    subst hwords
    obtain ⟨rest', rfl, hinserted'⟩ := hinserted.of_plain hvalue
    rw [readSide.go.eq_def]
    dsimp only
    rw [if_pos hvalue]
    exact hread (Nat.le_succ _) hinserted' (hmore.putOff s value) a hrest

/-- Two readings of the words on one side of a command's name. -/
theorem readSide_carries {words words' : List String} (hinserted : Inserted words words')
    {g g' : Given} (h : g.Richer g') :
    Carries (SideRicher command) (readSide command g words) (readSide command g' words') := by
  cases hinserted with
  | nil =>
      rw [readSide.eq_def, readSide.eq_def]
      exact .bind h fun r r' hr => .ok (.done hr)
  | @terminator word hword words =>
      rw [readSide.eq_def, readSide.eq_def]
      dsimp only
      rw [hword]
      dsimp only
      split
      · exact .error _
      · exact .bind h fun r r' hr => .ok (.done (hr.addInputs _))
  | @word word words words' hword rest =>
      -- Behind an option there are fewer words.
      have hless : ∀ {rest rest' : List String}, rest.length ≤ words.length →
          Inserted rest rest' → ∀ {r r' : Given}, r.Richer r' →
            Carries (SideRicher command) (readSide command r rest) (readSide command r' rest') :=
        fun hlength hrest _ _ hr =>
          have : _ < (word :: words).length := Nat.lt_succ_of_le hlength
          readSide_carries hrest hr
      rw [readSide.eq_def, readSide.eq_def command g']
      dsimp only
      cases hshape : Shape.ofWord word with
      | terminator => exact absurd hshape hword
      | long name attached =>
          dsimp only
          split
          · exact .error _
          · exact go_carries rest hless (h.take _ _ _)
      | short letters => exact go_carries rest hless (takeLetters_carries h (letters_ne_nil hshape))
      | plain =>
          dsimp only
          split
          · exact .ok (.name h rest)
          · refine .bind h fun r r' hr => ?_
            exact hless (Nat.le_refl _) rest (hr.addInputs _).richer
  | @option option words _ hoption rest =>
      intro a ha
      obtain ⟨q, hq, hmore⟩ := exists_of_readSide_option h hoption ha
      have : 0 < option.length := by
        obtain ⟨_, _, rfl, -⟩ := exists_of_mem_outputOptions hoption
        exact Nat.succ_pos _
      exact readSide_carries rest hmore a hq
termination_by words.length

/-! ## Requests -/

theorem checkConflicts_carries {g g' : Given} (h : g.Exceeds g') :
    Carries (fun _ _ => True) (checkConflicts g) (checkConflicts g') := by
  unfold checkConflicts
  split
  · exact .error _
  · next hnone =>
      rw [if_neg fun hboth => hnone ⟨h.switches hboth.1, h.switches hboth.2⟩]
      exact .ok trivial

theorem readCommand_carries (hinserted : Inserted words words') (name : CommandName)
    {before before' : Given} (h : before.Richer before') :
    Carries (fun i i' => i'.task = i.task) (readCommand name before words)
      (readCommand name before' words') := by
  have hnothing : Given.Exceeds .nothing .nothing := .refl rfl
  refine .bind (readSide_carries hinserted hnothing.richer) fun p p' hp => ?_
  cases hp with
  | done hbehind =>
      dsimp only
      rw [hbehind.schemas, hbehind.inputs]
      split
      · exact .error _
      · split
        · exact .error _
        · refine .bind (checkConflicts_carries hbehind) fun _ _ _ => ?_
          refine .bind h fun r r' hr => .bind (checkConflicts_carries hr) fun _ _ _ => .ok ?_
          simp only [Invocation.task, combine, hbehind.config, hr.config, hbehind.schemas,
            hbehind.inputs]

theorem readAll_carries (hinserted : Inserted words words') :
    Carries (fun i i' => i'.task = i.task) (readAll words) (readAll words') := by
  have hnothing : Given.Exceeds .nothing .nothing := .refl rfl
  refine .bind (readSide_carries hinserted hnothing.richer) fun p p' hp => ?_
  cases hp with
  | done _ => exact .error _
  | name hbefore rest =>
      dsimp only
      split
      · exact .error _
      · split
        · exact .error _
        · exact readCommand_carries rest _ hbefore

end

/-- Without options about the output, a command line asks for a check of the same task. -/
theorem ofWords_of_inserted {words words' : List String} {i : Invocation}
    (hinserted : Inserted words words') (h : Request.ofWords words = .ok (.check i)) :
    ∃ i', Request.ofWords words' = .ok (.check i') ∧ i'.task = i.task := by
  have hall : readAll words = .ok i := by
    unfold Request.ofWords at h
    split at h <;> cases h
    assumption
  obtain ⟨i', hi', htask⟩ := readAll_carries hinserted i hall
  exact ⟨i', by rw [Request.ofWords, hi'], htask⟩

end GraphLint.Arguments
