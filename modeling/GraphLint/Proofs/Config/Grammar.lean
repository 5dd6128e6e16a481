import GraphLint.Proofs.Command.Stages
import GraphLint.Proofs.Config.Writing
import Mathlib.Data.List.Induction

/-!
# Which values are configurations

`Config.Written` says which values write which configuration, form by form: presets by
themselves or in a list, and a full configuration as an object or as a list of the values
of its keys.  A list of strings has the form of presets and may have the other one as
well; it writes presets.

A reader takes exactly these values (`Config.written_of_ofDatum?`,
`Config.exists_ofDatum?_of_written`), and a configuration is accepted if, beyond that, all
its names exist.
-/

set_option autoImplicit false

namespace GraphLint

/-! ## Forms -/

/-- A value that writes a setting. -/
inductive RuleSetting.Written : Datum → RuleSetting → Prop
  | off : Written (.string "off") .off
  | warn : Written (.string "warn") .warn
  | error : Written (.string "error") .error
  | untrue : Written (.bool false) .off

/-- A value that writes presets. -/
inductive Presets.Written : Datum → Presets → Prop
  | one (name : String) : Written (.string name) (.one name)
  | many (names : List String) : Written (.list (names.map .string)) (.many names)

/-- A value that writes presets, or that there are none. -/
inductive Presets.WrittenIfAny : Datum → Option Presets → Prop
  | nothing : WrittenIfAny .null none
  | something {d : Datum} {presets : Presets} (written : Presets.Written d presets) :
    WrittenIfAny d (some presets)

/-- The last entry of a name among some entries. -/
def LastOf (entries : List (String × RuleSetting)) (name : String) (setting : RuleSetting) : Prop :=
  ∃ before after, entries = before ++ (name, setting) :: after ∧ name ∉ after.map (·.1)

/-- A value that writes settings: an object with a setting for each name.  Of a name that
comes again the last entry holds. -/
inductive Settings.Written : Datum → Settings → Prop
  | object {entries : List (String × Datum)} {given : List (String × RuleSetting)} {s : Settings}
    (each : List.Forall₂ (fun entry set => entry.1 = set.1 ∧ RuleSetting.Written entry.2 set.2)
      entries given)
    (last : ∀ name setting, s.get? name = some setting ↔ LastOf given name setting) :
    Written (.object entries) s

/-- What an object says for a key: what its value writes or, where the key is missing, that
there is nothing. -/
inductive Says {α : Type} (written : Datum → α → Prop) (nothing : α)
    (entries : List (String × Datum)) (key : String) : α → Prop
  | given {d : Datum} {a : α} (mem : (key, d) ∈ entries) (value : written d a) :
    Says written nothing entries key a
  | missing (absent : key ∉ entries.map (·.1)) : Says written nothing entries key nothing

namespace Config

/-- A value that has the form of a full configuration. -/
inductive WrittenFull : Datum → Option Presets → Settings → Prop
  | object {entries : List (String × Datum)} {presets : Option Presets} {s : Settings}
    (known : ∀ entry ∈ entries, entry.1 = presetsKey ∨ entry.1 = settingsKey)
    (once : (entries.map (·.1)).Nodup)
    (saysPresets : Says Presets.WrittenIfAny none entries presetsKey presets)
    (saysSettings : Says Settings.Written .empty entries settingsKey s) :
    WrittenFull (.object entries) presets s
  | presets {d : Datum} {presets : Option Presets} (written : Presets.WrittenIfAny d presets) :
    WrittenFull (.list [d]) presets .empty
  | both {d e : Datum} {presets : Option Presets} {s : Settings}
    (writtenPresets : Presets.WrittenIfAny d presets) (writtenSettings : Settings.Written e s) :
    WrittenFull (.list [d, e]) presets s

/-- A value that writes a configuration.  What has the form of presets writes presets. -/
inductive Written (d : Datum) : Config → Prop
  | preset {presets : Presets} (written : Presets.Written d presets) : Written d (.preset presets)
  | full {presets : Option Presets} {s : Settings} (others : ∀ p, ¬Presets.Written d p)
    (written : WrittenFull d presets s) : Written d (.full presets s)

end Config

/-! ## Reading parts -/

theorem RuleSetting.ofDatum?_iff {d : Datum} {setting : RuleSetting} :
    ofDatum? d = some setting ↔ Written d setting := by
  constructor
  · intro h
    unfold ofDatum? at h
    split at h
    · unfold ofLabel? at h
      split at h
      · cases h; exact .off
      · cases h; exact .warn
      · cases h; exact .error
      · cases h
    · cases h; exact .untrue
    · cases h
  · intro h
    cases h <;> rfl

theorem mapM_eq_some_iff {α β : Type} {f : α → Option β} {as : List α} {bs : List β} :
    as.mapM f = some bs ↔ List.Forall₂ (fun a b => f a = some b) as bs := by
  induction as generalizing bs with
  | nil =>
      rw [List.mapM_nil, List.forall₂_nil_left_iff]
      exact ⟨fun h => (Option.some.inj h).symm, fun h => h ▸ rfl⟩
  | cons a as ih =>
      rw [List.mapM_cons, List.forall₂_cons_left_iff]
      constructor
      · intro h
        obtain ⟨b, hb, h⟩ := Option.bind_eq_some_iff.mp h
        obtain ⟨bs', hbs, h⟩ := Option.bind_eq_some_iff.mp h
        cases h
        exact ⟨b, bs', hb, ih.mp hbs, rfl⟩
      · rintro ⟨b, bs', hb, hbs, rfl⟩
        rw [hb, ih.mpr hbs]
        rfl

theorem Datum.string?_eq_some_iff {d : Datum} {text : String} :
    d.string? = some text ↔ d = .string text := by
  cases d <;> simp [string?]

theorem Datum.mapM_string?_iff {items : List Datum} {texts : List String} :
    items.mapM string? = some texts ↔ items = texts.map .string := by
  rw [mapM_eq_some_iff]
  simp only [string?_eq_some_iff]
  rw [← List.forall₂_map_right_iff, List.forall₂_eq_eq_eq]

theorem Presets.ofDatum?_iff {d : Datum} {presets : Presets} :
    ofDatum? d = some presets ↔ Written d presets := by
  constructor
  · intro h
    unfold ofDatum? at h
    split at h
    · cases h
      exact .one _
    · obtain ⟨names, hnames, h⟩ := Option.map_eq_some_iff.mp h
      cases h
      rw [Datum.mapM_string?_iff.mp hnames]
      exact .many names
    · cases h
  · intro h
    cases h with
    | one name => exact ofDatum?_toDatum (.one name)
    | many names => exact ofDatum?_toDatum (.many names)

theorem Presets.ofOptionalDatum?_iff {d : Datum} {presets : Option Presets} :
    ofOptionalDatum? d = some presets ↔ WrittenIfAny d presets := by
  constructor
  · intro h
    unfold ofOptionalDatum? at h
    split at h
    · cases h
      exact .nothing
    · obtain ⟨p, hp, h⟩ := Option.map_eq_some_iff.mp h
      cases h
      exact .something (ofDatum?_iff.mp hp)
  · intro h
    cases h with
    | nothing => rfl
    | something written =>
        have hread := ofDatum?_iff.mpr written
        cases written <;> exact congrArg (Option.map some) hread

namespace Settings

theorem pair?_eq_some_iff {key : String} {d : Datum} {set : String × RuleSetting} :
    pair? (.string key, d) = some set ↔ key = set.1 ∧ RuleSetting.Written d set.2 := by
  obtain ⟨name, setting⟩ := set
  rw [← RuleSetting.ofDatum?_iff]
  show (RuleSetting.ofDatum? d).bind (fun read => some (key, read)) = _ ↔ _
  rw [Option.bind_eq_some_iff]
  constructor
  · rintro ⟨read, hread, heq⟩
    cases heq
    exact ⟨rfl, hread⟩
  · rintro ⟨rfl, hread⟩
    exact ⟨setting, hread, rfl⟩

theorem ofDatum?_object_iff {entries : List (String × Datum)} {s : Settings} :
    ofDatum? (.object entries) = some s ↔ ∃ given,
      List.Forall₂ (fun entry set => entry.1 = set.1 ∧ RuleSetting.Written entry.2 set.2)
        entries given ∧ ofList given = s := by
  rw [Datum.object, ofDatum?_map, List.mapM_map, Option.map_eq_some_iff]
  simp only [mapM_eq_some_iff, Function.comp_apply, pair?_eq_some_iff]

theorem get?_insert_self (s : Settings) (name : String) (setting : RuleSetting) :
    (s.insert name setting).get? name = some setting := by
  rw [get?_eq_some_iff]
  show (name, setting) ∈ put name setting s.entries
  induction s.entries with
  | nil => exact List.mem_singleton_self _
  | cons entry rest ih =>
      unfold put
      split
      · exact List.mem_cons_self
      · exact List.mem_cons_of_mem _ ih

theorem lastOf_concat_iff {entries : List (String × RuleSetting)} {last : String × RuleSetting}
    {name : String} {setting : RuleSetting} :
    LastOf (entries ++ [last]) name setting ↔
      if last.1 = name then last.2 = setting else LastOf entries name setting := by
  constructor
  · rintro ⟨before, after, heq, hafter⟩
    rcases List.eq_nil_or_concat' after with rfl | ⟨after, x, rfl⟩
    · obtain ⟨_, hlast⟩ := List.append_inj' heq rfl
      cases hlast
      rw [if_pos rfl]
    · rw [← List.cons_append, ← List.append_assoc] at heq
      obtain ⟨hentries, hlast⟩ := List.append_inj' heq rfl
      cases hlast
      rw [List.map_append, List.mem_append, not_or] at hafter
      rw [if_neg fun h => hafter.2 (List.mem_singleton.mpr h.symm)]
      exact ⟨before, after, hentries, hafter.1⟩
  · split
    · next h =>
        rintro rfl
        exact ⟨entries, [], by rw [← h], List.not_mem_nil⟩
    · next h =>
        rintro ⟨before, after, rfl, hafter⟩
        refine ⟨before, after ++ [last], ?_, ?_⟩
        · rw [List.append_assoc, List.cons_append]
        · rw [List.map_append, List.mem_append, not_or]
          exact ⟨hafter, fun hmem => h (List.mem_singleton.mp hmem).symm⟩

/-- Of a name that is set more than once the last setting holds. -/
theorem get?_ofList_iff {entries : List (String × RuleSetting)} {name : String}
    {setting : RuleSetting} :
    (ofList entries).get? name = some setting ↔ LastOf entries name setting := by
  induction entries using List.reverseRecOn with
  | nil =>
      constructor
      · exact nofun
      · rintro ⟨before, after, heq, _⟩
        exact absurd heq.symm (List.append_ne_nil_of_right_ne_nil _ (List.cons_ne_nil _ _))
  | append_singleton entries last ih =>
      rw [lastOf_concat_iff, ofList, List.foldl_append]
      show ((ofList entries).insert last.1 last.2).get? name = _ ↔ _
      split
      · next h =>
          subst h
          rw [get?_insert_self, Option.some.injEq]
      · next h =>
          rw [get?_insert_of_ne _ _ (Ne.symm h), ih]

end Settings

/-! ## Reading objects -/

/-- What has been read for a key behind some entries, given what had been read before them.
A key is read once. -/
def Fills {α : Type} (read : Datum → Option α) (key : String) (entries : List (String × Datum))
    (before after : Option α) : Prop :=
  (key ∉ entries.map (·.1) ∧ after = before) ∨
    (before = none ∧ ∃ d a, (key, d) ∈ entries ∧ read d = some a ∧ after = some a)

namespace Fills

variable {α : Type} {read : Datum → Option α} {key other : String} {d : Datum}
  {entries : List (String × Datum)} {before after : Option α} {a : α}

theorem nil_iff : Fills read key [] before after ↔ after = before :=
  (or_iff_left fun ⟨_, _, _, hmem, _⟩ => List.not_mem_nil hmem).trans
    (and_iff_right List.not_mem_nil)

theorem some_iff : Fills read key entries (some a) after ↔
    key ∉ entries.map (·.1) ∧ after = some a :=
  or_iff_left fun h => nomatch h.1

theorem cons_of_ne (hne : other ≠ key) :
    Fills read key ((other, d) :: entries) before after ↔ Fills read key entries before after := by
  have hmem : ∀ e, (key, e) ∈ (other, d) :: entries ↔ (key, e) ∈ entries := by
    intro e
    rw [List.mem_cons, or_iff_right]
    rintro heq
    exact hne (Prod.mk.inj heq).1.symm
  unfold Fills
  simp only [hmem, List.map_cons, List.mem_cons, not_or, Ne.symm hne, not_false_eq_true, true_and]

theorem cons_self (hnew : key ∉ entries.map (·.1)) :
    Fills read key ((key, d) :: entries) before after ↔
      before = none ∧ ∃ a, read d = some a ∧ after = some a := by
  have hmem : ∀ e, (key, e) ∈ (key, d) :: entries ↔ e = d := by
    intro e
    rw [List.mem_cons, Prod.mk.injEq, or_iff_left]
    · exact and_iff_right rfl
    · intro he
      exact hnew (List.mem_map_of_mem he)
  unfold Fills
  simp only [hmem, List.map_cons, List.mem_cons_self, not_true_eq_false, false_and, false_or,
    exists_and_left, exists_eq_left]

/-- What has been read is what the entries say. -/
theorem said {written : Datum → α → Prop} {nothing : α} (h : Fills read key entries none after)
    (hread : ∀ d a, (key, d) ∈ entries → read d = some a → written d a) :
    Says written nothing entries key (after.getD nothing) := by
  rcases h with ⟨habsent, rfl⟩ | ⟨_, d, a, hmem, ha, rfl⟩
  · exact .missing habsent
  · exact .given hmem (hread d a hmem ha)

end Fills

/-- What entries say can be read from them. -/
theorem Says.exists_fills {α : Type} {written : Datum → α → Prop} {nothing a : α}
    {entries : List (String × Datum)} {key : String} {read : Datum → Option α} {R : α → α → Prop}
    (h : Says written nothing entries key a) (hnothing : R nothing nothing)
    (hread : ∀ d a, written d a → ∃ b, read d = some b ∧ R a b) :
    ∃ after, Fills read key entries none after ∧ R a (after.getD nothing) := by
  cases h with
  | @given d _ mem value =>
      obtain ⟨b, hb, hR⟩ := hread d a value
      exact ⟨some b, .inr ⟨rfl, d, b, mem, hb, rfl⟩, hR⟩
  | missing absent => exact ⟨none, .inl ⟨absent, rfl⟩, hnothing⟩

namespace Config

theorem Parts.read?_eq_some_iff {parts parts' : Parts} {key : String} {d : Datum} :
    parts.read? (.string key, d) = some parts' ↔
      (key = presetsKey ∧ parts.presets = none ∧ ∃ p, Presets.ofOptionalDatum? d = some p ∧
        { parts with presets := some p } = parts') ∨
      (key = settingsKey ∧ parts.settings = none ∧ ∃ s, Settings.ofDatum? d = some s ∧
        { parts with settings := some s } = parts') := by
  have hkeys : ¬(key = presetsKey ∧ key = settingsKey) := by
    rintro ⟨rfl, h⟩
    exact absurd h (by decide)
  have hread : parts.read? (.string key, d) =
      if key = presetsKey ∧ parts.presets = none then
        (Presets.ofOptionalDatum? d).bind fun p => some { parts with presets := some p }
      else if key = settingsKey ∧ parts.settings = none then
        (Settings.ofDatum? d).bind fun s => some { parts with settings := some s }
      else none := by
    simp only [read?, isKey, decide_eq_true_eq, Option.isNone_iff_eq_none]
    rfl
  rw [hread]
  split
  · next h =>
      simp only [Option.bind_eq_some_iff, Option.some.injEq]
      rw [or_iff_left fun hs => hkeys ⟨h.1, hs.1⟩]
      exact ⟨fun hp => ⟨h.1, h.2, hp⟩, fun hp => hp.2.2⟩
  · next h =>
      rw [or_iff_right fun hp => h ⟨hp.1, hp.2.1⟩]
      split
      · next h' =>
          simp only [Option.bind_eq_some_iff, Option.some.injEq]
          exact ⟨fun hs => ⟨h'.1, h'.2, hs⟩, fun hs => hs.2.2⟩
      · next h' =>
          exact ⟨by rintro ⟨⟩, fun hs => absurd ⟨hs.1, hs.2.1⟩ h'⟩

/-- Entries are read if their keys are known and come once, and their values can be read. -/
theorem foldlM_read?_iff {entries : List (String × Datum)} {parts parts' : Parts} :
    (Json.keyed entries).foldlM Parts.read? parts = some parts' ↔
      (∀ entry ∈ entries, entry.1 = presetsKey ∨ entry.1 = settingsKey) ∧
      (entries.map (·.1)).Nodup ∧
      Fills Presets.ofOptionalDatum? presetsKey entries parts.presets parts'.presets ∧
      Fills Settings.ofDatum? settingsKey entries parts.settings parts'.settings := by
  induction entries generalizing parts with
  | nil =>
      obtain ⟨presets, settings⟩ := parts
      obtain ⟨presets', settings'⟩ := parts'
      show some (Parts.mk presets settings) = some (Parts.mk presets' settings') ↔ _
      rw [Fills.nil_iff, Fills.nil_iff, Option.some.injEq, Parts.mk.injEq]
      constructor
      · rintro ⟨rfl, rfl⟩
        exact ⟨nofun, List.nodup_nil, rfl, rfl⟩
      · rintro ⟨_, _, rfl, rfl⟩
        exact ⟨rfl, rfl⟩
  | cons entry entries ih =>
      obtain ⟨key, d⟩ := entry
      show ((parts.read? (.string key, d)).bind fun mid => (Json.keyed entries).foldlM Parts.read? mid) =
        some parts' ↔ _
      rw [Option.bind_eq_some_iff]
      simp only [Parts.read?_eq_some_iff, ih]
      constructor
      · rintro ⟨mid, ⟨rfl, hnone, p, hp, rfl⟩ | ⟨rfl, hnone, s, hs, rfl⟩, hknown, hnodup, hpresets,
          hsettings⟩
        · obtain ⟨hnew, hafter⟩ := Fills.some_iff.mp hpresets
          exact ⟨List.forall_mem_cons.mpr ⟨.inl rfl, hknown⟩,
            List.nodup_cons.mpr ⟨hnew, hnodup⟩,
            (Fills.cons_self hnew).mpr ⟨hnone, p, hp, hafter⟩,
            (Fills.cons_of_ne (by decide)).mpr hsettings⟩
        · obtain ⟨hnew, hafter⟩ := Fills.some_iff.mp hsettings
          exact ⟨List.forall_mem_cons.mpr ⟨.inr rfl, hknown⟩,
            List.nodup_cons.mpr ⟨hnew, hnodup⟩,
            (Fills.cons_of_ne (by decide)).mpr hpresets,
            (Fills.cons_self hnew).mpr ⟨hnone, s, hs, hafter⟩⟩
      · rintro ⟨hknown, hnodup, hpresets, hsettings⟩
        obtain ⟨hkey, hothers⟩ := List.forall_mem_cons.mp hknown
        obtain ⟨hnew, hrest⟩ := List.nodup_cons.mp hnodup
        rcases hkey with rfl | rfl
        · obtain ⟨hnone, p, hp, hafter⟩ := (Fills.cons_self hnew).mp hpresets
          exact ⟨_, .inl ⟨rfl, hnone, p, hp, rfl⟩, hothers, hrest,
            Fills.some_iff.mpr ⟨hnew, hafter⟩, (Fills.cons_of_ne (by decide)).mp hsettings⟩
        · obtain ⟨hnone, s, hs, hafter⟩ := (Fills.cons_self hnew).mp hsettings
          exact ⟨_, .inr ⟨rfl, hnone, s, hs, rfl⟩, hothers, hrest,
            (Fills.cons_of_ne (by decide)).mp hpresets, Fills.some_iff.mpr ⟨hnew, hafter⟩⟩

/-! ## Reading configurations -/

end Config

namespace Settings

theorem written_of_ofDatum? {d : Datum} {s : Settings} (hd : d.IsStringKeyed)
    (h : ofDatum? d = some s) : Written d s := by
  cases hd with
  | null | bool | number | string | list => cases h
  | object inside =>
      obtain ⟨given, heach, rfl⟩ := ofDatum?_object_iff.mp h
      exact .object heach fun _ _ => get?_ofList_iff

/-- Settings that set the same have the same entries. -/
theorem perm_of_get? {s s' : Settings} (h : ∀ name setting, s.get? name = some setting ↔
    s'.get? name = some setting) : s.entries.Perm s'.entries := by
  refine (List.perm_ext_iff_of_nodup s.distinct.of_map s'.distinct.of_map).mpr ?_
  rintro ⟨name, setting⟩
  rw [← get?_eq_some_iff, ← get?_eq_some_iff, h]

theorem exists_ofDatum?_of_written {d : Datum} {s : Settings} (h : Written d s) :
    ∃ s', ofDatum? d = some s' ∧ s.entries.Perm s'.entries := by
  cases h with
  | @object _ given _ each last =>
      refine ⟨ofList given, ofDatum?_object_iff.mpr ⟨given, each, rfl⟩, perm_of_get? ?_⟩
      intro name setting
      rw [last, get?_ofList_iff]

end Settings

namespace Config

theorem fullOfDatum?_object {entries : List (String × Datum)} {c : Config} :
    fullOfDatum? (.object entries) = some c ↔ ∃ parts,
      (Json.keyed entries).foldlM Parts.read? ⟨none, none⟩ = some parts ∧
      c = .full (parts.presets.getD none) (parts.settings.getD .empty) := by
  have hjoin : ∀ presets : Option (Option Presets), presets.join = presets.getD none := by
    rintro (_ | _) <;> rfl
  show ((Json.keyed entries).foldlM Parts.read? ⟨none, none⟩).bind (fun parts =>
    some (.full parts.presets.join (parts.settings.getD .empty))) = some c ↔ _
  simp only [Option.bind_eq_some_iff, Option.some.injEq, hjoin, eq_comm (a := c)]

theorem writtenFull_of_fullOfDatum? {d : Datum} {c : Config} (hd : d.IsStringKeyed)
    (h : fullOfDatum? d = some c) : ∃ presets s, c = .full presets s ∧ WrittenFull d presets s := by
  cases hd with
  | null | bool | number | string => cases h
  | list inside =>
      unfold fullOfDatum? at h
      split at h
      · next heq => cases heq
      · next presets heq =>
          cases heq
          obtain ⟨p, hp, h⟩ := Option.bind_eq_some_iff.mp h
          cases h
          exact ⟨p, .empty, rfl, .presets (Presets.ofOptionalDatum?_iff.mp hp)⟩
      · next presets settings heq =>
          cases heq
          obtain ⟨p, hp, h⟩ := Option.bind_eq_some_iff.mp h
          obtain ⟨s, hs, h⟩ := Option.bind_eq_some_iff.mp h
          cases h
          have hkeyed : settings.IsStringKeyed := inside settings (by simp)
          exact ⟨p, s, rfl, .both (Presets.ofOptionalDatum?_iff.mp hp)
            (Settings.written_of_ofDatum? hkeyed hs)⟩
      · cases h
  | object inside =>
      obtain ⟨parts, hparts, rfl⟩ := fullOfDatum?_object.mp h
      obtain ⟨hknown, honce, hpresets, hsettings⟩ := foldlM_read?_iff.mp hparts
      refine ⟨_, _, rfl, .object hknown honce (hpresets.said ?_) (hsettings.said ?_)⟩
      · exact fun _ _ _ hread => Presets.ofOptionalDatum?_iff.mp hread
      · exact fun _ _ hmem hread => Settings.written_of_ofDatum? (inside _ hmem) hread

theorem exists_fullOfDatum?_of_writtenFull {d : Datum} {presets : Option Presets} {s : Settings}
    (h : WrittenFull d presets s) :
    ∃ s', fullOfDatum? d = some (.full presets s') ∧ s.entries.Perm s'.entries := by
  cases h with
  | object known once saysPresets saysSettings =>
      obtain ⟨read, hread, rfl⟩ := saysPresets.exists_fills (R := Eq) rfl
        fun d p written => ⟨p, Presets.ofOptionalDatum?_iff.mpr written, rfl⟩
      obtain ⟨set, hset, hperm⟩ := saysSettings.exists_fills
        (R := fun s s' => s.entries.Perm s'.entries) (.refl _)
        fun d s written => Settings.exists_ofDatum?_of_written written
      refine ⟨set.getD .empty, fullOfDatum?_object.mpr ⟨⟨read, set⟩, ?_, rfl⟩, hperm⟩
      exact foldlM_read?_iff.mpr ⟨known, once, hread, hset⟩
  | presets written =>
      refine ⟨.empty, ?_, .refl _⟩
      rw [fullOfDatum?, Presets.ofOptionalDatum?_iff.mpr written]
      rfl
  | both writtenPresets writtenSettings =>
      obtain ⟨s', hs', hperm⟩ := Settings.exists_ofDatum?_of_written writtenSettings
      refine ⟨s', ?_, hperm⟩
      rw [fullOfDatum?, Presets.ofOptionalDatum?_iff.mpr writtenPresets, hs']
      rfl

/-- What is read is what the value writes. -/
theorem written_of_ofDatum? {d : Datum} {c : Config} (hd : d.IsStringKeyed)
    (h : ofDatum? d = some c) : Written d c := by
  unfold ofDatum? at h
  split at h
  · next presets hpresets =>
      cases h
      exact .preset (Presets.ofDatum?_iff.mp hpresets)
  · next hnone =>
      obtain ⟨presets, s, rfl, hfull⟩ := writtenFull_of_fullOfDatum? hd h
      refine .full ?_ hfull
      intro p hp
      rw [Presets.ofDatum?_iff.mpr hp] at hnone
      cases hnone

/-- What a value writes is read from it, up to the order of settings. -/
theorem exists_ofDatum?_of_written {d : Datum} {c : Config} (h : Written d c) :
    ∃ c', ofDatum? d = some c' ∧ c.Same c' := by
  unfold ofDatum?
  cases h with
  | preset written =>
      rw [Presets.ofDatum?_iff.mpr written]
      exact ⟨_, rfl, .preset _⟩
  | full others written =>
      obtain ⟨s', hs', hperm⟩ := exists_fullOfDatum?_of_writtenFull written
      cases hpresets : Presets.ofDatum? d with
      | none => exact ⟨_, hs', .full _ hperm⟩
      | some p => exact absurd (Presets.ofDatum?_iff.mp hpresets) (others p)

/-! ## Names -/

/-- What is unknown of the names in a configuration: its first preset that does not exist
or, where all presets exist, all its rules that do not, each once and in ascending order. -/
inductive Unknown (c : Config) : UnknownNames → Prop
  | preset {presets : Presets} {before after : List String} {name : String}
    (chosen : c.presets? = some presets) (place : presets.names = before ++ name :: after)
    (known : ∀ other ∈ before, other = recommendedName) (unknown : name ≠ recommendedName) :
    Unknown c (.preset name)
  | rules {names : List String}
    (presets : ∀ presets, c.presets? = some presets →
      ∀ name ∈ presets.names, name = recommendedName)
    (some : names ≠ []) (ascending : names.Pairwise (· < ·))
    (mem : ∀ name, name ∈ names ↔ name ∈ c.settings.names ∧ name ∉ Registry.ruleNames) :
    Unknown c (.rules names)

/-- Names are sorted in one way only. -/
theorem eq_mergeSort_iff {names sorted : List String} (h : names.Nodup) :
    sorted = names.mergeSort (fun a b => decide (a ≤ b)) ↔
      sorted.Pairwise (· < ·) ∧ ∀ name, name ∈ sorted ↔ name ∈ names := by
  have hperm := List.mergeSort_perm names fun a b => decide (a ≤ b)
  constructor
  · rintro rfl
    refine ⟨?_, fun name => hperm.mem_iff⟩
    refine (pairwise_mergeSort names).imp₂ ?_ (hperm.nodup_iff.mpr h)
    intro a b hle hne
    exact String.not_le.mp fun hge => hne (String.le_antisymm hle hge)
  · rintro ⟨hascending, hmem⟩
    have hnodup : sorted.Nodup := by
      refine hascending.imp ?_
      rintro a _ hlt rfl
      exact String.lt_irrefl a hlt
    refine List.Perm.eq_of_pairwise (fun a b _ _ => String.le_antisymm)
      (hascending.imp fun hlt => String.not_lt.mp (String.lt_asymm hlt)) (pairwise_mergeSort names) ?_
    exact ((List.perm_ext_iff_of_nodup hnodup h).mpr hmem).trans hperm.symm

theorem unknown_preset_iff {c : Config} {name : String} :
    c.Unknown (.preset name) ↔
      ((c.presets?.map Presets.names).getD []).find? (· ≠ recommendedName) = some name := by
  rw [List.find?_eq_some_iff_append]
  constructor
  · intro h
    cases h with
    | @preset _ before after _ chosen place known unknown =>
        refine ⟨decide_eq_true unknown, before, after, ?_, ?_⟩
        · rw [chosen]
          exact place
        · intro other hother
          simp [known other hother]
  · rintro ⟨hunknown, before, after, hplace, hknown⟩
    cases hchosen : c.presets? with
    | none =>
        rw [hchosen] at hplace
        exact absurd hplace.symm (List.append_ne_nil_of_right_ne_nil _ (List.cons_ne_nil _ _))
    | some presets =>
        rw [hchosen] at hplace
        refine .preset hchosen hplace (fun other hother => ?_) (of_decide_eq_true hunknown)
        simpa using hknown other hother

theorem unknown_rules_iff {c : Config} {names : List String} :
    c.Unknown (.rules names) ↔
      ((c.presets?.map Presets.names).getD []).find? (· ≠ recommendedName) = none ∧ names ≠ [] ∧
      names = (c.settings.names.filter (!Registry.ruleNames.contains ·)).mergeSort
        (fun a b => decide (a ≤ b)) := by
  have hmem : ∀ name, name ∈ c.settings.names.filter (!Registry.ruleNames.contains ·) ↔
      name ∈ c.settings.names ∧ name ∉ Registry.ruleNames := by
    intro name
    rw [List.mem_filter]
    simp
  have hnodup : (c.settings.names.filter (!Registry.ruleNames.contains ·)).Nodup :=
    c.settings.distinct.filter _
  rw [find?_presets_eq_none_iff, eq_mergeSort_iff hnodup]
  simp only [hmem]
  constructor
  · intro h
    cases h with
    | rules presets some ascending mem => exact ⟨presets, some, ascending, mem⟩
  · rintro ⟨presets, some, ascending, mem⟩
    exact .rules presets some ascending mem

/-- Unknown names are told as they are, and presets count more than rules. -/
theorem unknownNames?_eq_some_iff {c : Config} {u : UnknownNames} :
    c.unknownNames? = some u ↔ c.Unknown u := by
  have hperm := List.mergeSort_perm (c.settings.names.filter (!Registry.ruleNames.contains ·))
    fun a b => decide (a ≤ b)
  dsimp only [unknownNames?]
  cases u with
  | preset name =>
      rw [unknown_preset_iff]
      split
      · next other hfind => rw [hfind, Option.some.injEq, Option.some.injEq, UnknownNames.preset.injEq]
      · next hfind =>
          rw [hfind]
          refine ⟨fun h => ?_, nofun⟩
          split at h <;> cases h
  | rules names =>
      rw [unknown_rules_iff]
      split
      · next other hfind =>
          rw [hfind]
          exact ⟨nofun, nofun⟩
      · next hfind =>
          rw [hfind, and_iff_right rfl]
          split
          · next hempty =>
              rw [List.isEmpty_iff.mp hempty, List.mergeSort_nil]
              exact ⟨nofun, fun h => absurd h.2 h.1⟩
          · next hempty =>
              rw [Option.some.injEq, UnknownNames.rules.injEq, eq_comm]
              refine (and_iff_right_of_imp ?_).symm
              rintro rfl hnil
              rw [hnil] at hperm
              exact hempty (List.isEmpty_iff.mpr hperm.symm.eq_nil)

/-! ## Configuration files -/

/-- The path ends in `.json`, in any case of its letters. -/
def IsJsonPath (path : String) : Prop :=
  ∃ extension, Path.extension? path = some extension ∧ extension.map Char.toLower = "json"

theorem ofPath?_of_isJsonPath {path : String} (h : IsJsonPath path) :
    ConfigFormat.ofPath? path = some .json := by
  obtain ⟨extension, hextension, hjson⟩ := h
  unfold ConfigFormat.ofPath?
  rw [hextension, Option.map_some, hjson]
  rfl

theorem parse_json {path : String} (h : IsJsonPath path) (text : String) :
    parse text path =
      match ofJson? text with
      | none => .error (.invalid path)
      | some c => c.checkNames := by
  unfold parse
  rw [ofPath?_of_isJsonPath h]
  rfl

/-- A rule that the recommended preset sets exists. -/
theorem mem_ruleNames_of_recommended {rule : String} {setting : RuleSetting}
    (h : recommendedSetting? rule = some setting) : rule ∈ Registry.ruleNames := by
  refine (List.mergeSort_perm _ _).mem_iff.mpr ?_
  unfold recommendedSetting? at h
  split at h
  · decide
  · decide
  · decide
  · cases h

/-- If its names exist, a configuration sets nothing for rules that do not. -/
theorem mem_ruleNames_of_setting? {c : Config} (hc : c.NamesExist) {rule : String}
    {setting : RuleSetting} (h : c.setting? rule = some setting) : rule ∈ Registry.ruleNames := by
  have hsets := c.sets_setting? rule
  rw [h] at hsets
  generalize hset : some setting = set at hsets
  cases hsets with
  | entry own => exact hc.rules rule (List.mem_map_of_mem own)
  | preset _ _ _ => exact mem_ruleNames_of_recommended hset.symm
  | nothing _ _ => cases hset

/-- How a JSON text is judged as a configuration, by the value that it writes. -/
structure Judged (text path : String) : Prop where
  /-- It is accepted exactly if its value writes a configuration all of whose names exist. -/
  accepted : (∃ c, parse text path = .ok c) ↔
    ∃ d c, Json.parse? text = some d ∧ Written d c ∧ c.NamesExist
  /-- What is returned is what the value writes. -/
  returned : ∀ c, parse text path = .ok c → ∃ d, Json.parse? text = some d ∧ Written d c
  /-- It is invalid exactly if it has no value or one that writes no configuration. -/
  invalid : parse text path = .error (.invalid path) ↔
    ∀ d, Json.parse? text = some d → ∀ c, ¬Written d c
  /-- Names are unknown exactly if they are in what the value writes. -/
  unknown : ∀ u, parse text path = .error (.unknownNames u) ↔
    ∃ d c, Json.parse? text = some d ∧ Written d c ∧ c.Unknown u
  /-- What has the form of presets is read as presets. -/
  presets : ∀ d presets, Json.parse? text = some d → Presets.Written d presets →
    parse text path = (Config.preset presets).checkNames
  /-- A configuration that is accepted sets something for existing rules only. -/
  registered : ∀ c, parse text path = .ok c →
    ∀ rule setting, c.setting? rule = some setting → rule ∈ Registry.ruleNames

theorem checkNames_eq_ok_iff {c c' : Config} : c.checkNames = .ok c' ↔ c.NamesExist ∧ c = c' := by
  rw [← unknownNames?_eq_none_iff]
  unfold checkNames
  split
  · next h =>
      rw [h]
      exact ⟨nofun, nofun⟩
  · next h =>
      rw [h, Except.ok.injEq, and_iff_right rfl]

theorem checkNames_eq_error_iff {c : Config} {e : ConfigError} :
    c.checkNames = .error e ↔ ∃ u, c.Unknown u ∧ e = .unknownNames u := by
  simp only [← unknownNames?_eq_some_iff]
  unfold checkNames
  split
  · next u h =>
      rw [h, Except.error.injEq]
      constructor
      · rintro rfl
        exact ⟨u, rfl, rfl⟩
      · rintro ⟨_, heq, rfl⟩
        cases heq
        rfl
  · next h =>
      rw [h]
      exact ⟨nofun, nofun⟩

theorem Same.namesExist_iff {c c' : Config} (h : c.Same c') : c.NamesExist ↔ c'.NamesExist := by
  rw [← unknownNames?_eq_none_iff, ← unknownNames?_eq_none_iff, h.unknownNames?]

theorem Same.unknown_iff {c c' : Config} (h : c.Same c') {u : UnknownNames} :
    c.Unknown u ↔ c'.Unknown u := by
  rw [← unknownNames?_eq_some_iff, ← unknownNames?_eq_some_iff, h.unknownNames?]

theorem exists_written_of_ofJson? {text : String} {c : Config} (h : ofJson? text = some c) :
    ∃ d, Json.parse? text = some d ∧ Written d c := by
  obtain ⟨d, hd, hc⟩ := Option.bind_eq_some_iff.mp h
  exact ⟨d, hd, written_of_ofDatum? (Json.isStringKeyed_of_parse? hd) hc⟩

theorem exists_ofJson?_of_written {text : String} {d : Datum} {c : Config}
    (hd : Json.parse? text = some d) (h : Written d c) : ∃ c', ofJson? text = some c' ∧ c.Same c' := by
  unfold ofJson?
  rw [hd, Option.bind_some]
  exact exists_ofDatum?_of_written h

section

variable {text path : String} (h : IsJsonPath path)

include h

theorem parse_eq_ok_iff {c : Config} :
    parse text path = .ok c ↔ ofJson? text = some c ∧ c.NamesExist := by
  rw [parse_json h]
  split
  · next hread =>
      rw [hread]
      exact ⟨nofun, nofun⟩
  · next read hread =>
      rw [hread, checkNames_eq_ok_iff, Option.some.injEq]
      constructor
      · rintro ⟨hnames, rfl⟩
        exact ⟨rfl, hnames⟩
      · rintro ⟨rfl, hnames⟩
        exact ⟨hnames, rfl⟩

theorem parse_eq_invalid_iff :
    parse text path = .error (.invalid path) ↔ ofJson? text = none := by
  rw [parse_json h]
  split
  · next hread => exact iff_of_true rfl hread
  · next read hread =>
      rw [hread, checkNames_eq_error_iff]
      refine iff_of_false ?_ nofun
      rintro ⟨_, _, heq⟩
      cases heq

theorem parse_eq_unknownNames_iff {u : UnknownNames} :
    parse text path = .error (.unknownNames u) ↔ ∃ c, ofJson? text = some c ∧ c.Unknown u := by
  rw [parse_json h]
  split
  · next hread =>
      rw [hread]
      refine iff_of_false nofun ?_
      rintro ⟨_, hc, _⟩
      cases hc
  · next read hread =>
      simp only [hread, checkNames_eq_error_iff, Option.some.injEq, exists_eq_left',
        ConfigError.unknownNames.injEq, exists_eq_right']

end

/-- A JSON text is accepted as a configuration exactly if its value has one of the forms of
configurations and all names in it exist; else it is invalid, or its unknown names are told. -/
theorem parse_judged (text : String) {path : String} (h : IsJsonPath path) : Judged text path := by
  constructor
  · constructor
    · rintro ⟨c, hc⟩
      obtain ⟨hread, hnames⟩ := (parse_eq_ok_iff h).mp hc
      obtain ⟨d, hd, hwritten⟩ := exists_written_of_ofJson? hread
      exact ⟨d, c, hd, hwritten, hnames⟩
    · rintro ⟨d, c, hd, hwritten, hnames⟩
      obtain ⟨read, hread, hsame⟩ := exists_ofJson?_of_written hd hwritten
      exact ⟨read, (parse_eq_ok_iff h).mpr ⟨hread, hsame.namesExist_iff.mp hnames⟩⟩
  · exact fun c hc => exists_written_of_ofJson? ((parse_eq_ok_iff h).mp hc).1
  · rw [parse_eq_invalid_iff h]
    constructor
    · intro hnone d hd c hwritten
      obtain ⟨read, hread, _⟩ := exists_ofJson?_of_written hd hwritten
      rw [hnone] at hread
      cases hread
    · intro hnone
      refine Option.eq_none_iff_forall_ne_some.mpr fun c hread => ?_
      obtain ⟨d, hd, hwritten⟩ := exists_written_of_ofJson? hread
      exact hnone d hd c hwritten
  · intro u
    rw [parse_eq_unknownNames_iff h]
    constructor
    · rintro ⟨c, hread, hu⟩
      obtain ⟨d, hd, hwritten⟩ := exists_written_of_ofJson? hread
      exact ⟨d, c, hd, hwritten, hu⟩
    · rintro ⟨d, c, hd, hwritten, hu⟩
      obtain ⟨read, hread, hsame⟩ := exists_ofJson?_of_written hd hwritten
      exact ⟨read, hread, hsame.unknown_iff.mp hu⟩
  · intro d presets hd hwritten
    have hread : ofJson? text = some (.preset presets) := by
      rw [ofJson?, hd, Option.bind_some, ofDatum?, Presets.ofDatum?_iff.mpr hwritten]
    rw [parse_json h, hread]
  · exact fun c hc _ _ => mem_ruleNames_of_setting? ((parse_eq_ok_iff h).mp hc).2

/-- A full configuration in a list, in whose settings a rule comes twice. -/
def squat : String :=
  "[\"recommended\", \x7b\"no-deprecated\": \"warn\", \"no-deprecated\": false\x7d]"

theorem parse_judged_squat : IsJsonPath "etc/Lint.JSON" ∧ Judged squat "etc/Lint.JSON" :=
  have h : IsJsonPath "etc/Lint.JSON" :=
    ⟨"JSON", by decide, String.toList_inj.mp (by rw [String.toList_map]; decide)⟩
  ⟨h, parse_judged squat h⟩

example : ofJson? squat = some (.full (some (.one "recommended"))
    (Settings.ofList [("no-deprecated", .off)])) := by
  decide +kernel

end Config

end GraphLint
