import GraphLint.Document.Basic

/-!
# Reading tokens one after another

The productions of the grammar run over a `Cursor`: the tokens still ahead, the
number of the next one, and the faults met so far.  A production always has an
answer.  Where the text leaves out what the grammar asks for, a production
notes a fault, takes nothing, and answers with the piece absent; so one fault
does not hide the rest of the text.

Tokens are numbered as they are taken.  A token that is thrown out of the text
has no number, and those behind it move up.

Repetition is bounded by the number of tokens ahead.  Each turn takes at least
one of them, so the bound never ends a repetition that the text goes on with.
-/

set_option autoImplicit false

namespace GraphLint

/-- A place where the tokens do not follow the grammar. -/
structure SyntaxFault where
  expected : String
  /-- Number of the token that stands there instead, among all that are written. -/
  token : Nat
  deriving DecidableEq, Repr, Inhabited

def SyntaxFault.message (f : SyntaxFault) : String := "expected " ++ f.expected

/-- How far the reading of a token list has come. -/
structure Cursor where
  ahead : List Upcoming
  /-- Number of the next token. -/
  index : Nat
  /-- The tokens thrown out of the text, by their numbers among all that are
  written, the latest first. -/
  discarded : List Nat
  /-- The faults met so far, the latest first. -/
  faults : List SyntaxFault
  /-- Whether reading has stopped before the end of the text. -/
  isAbandoned : Bool
  deriving DecidableEq, Repr, Inhabited

namespace Cursor

def start (tokens : List Upcoming) : Cursor := ⟨tokens, 0, [], [], false⟩

/-- Number of the next token among all that are written. -/
def written (c : Cursor) : Nat := c.index + c.discarded.length

/-- The cursor with one more fault noted.  After the reading has stopped nothing is
noted. -/
def noting (c : Cursor) (expected : String) : Cursor :=
  if c.isAbandoned then c else { c with faults := ⟨expected, c.written⟩ :: c.faults }

/-- Where reading may come to from a cursor. -/
structure Leads (c c' : Cursor) : Prop where
  index : c.index ≤ c'.index
  faults : c'.faults = [] → c.faults = []
  /-- Reading does not stop without a fault. -/
  isAbandoned : c'.isAbandoned = true → c.isAbandoned = true ∨ c'.faults ≠ []

theorem Leads.refl (c : Cursor) : c.Leads c := ⟨Nat.le_refl _, id, .inl⟩

theorem Leads.trans {c c' c'' : Cursor} (h : c.Leads c') (h' : c'.Leads c'') : c.Leads c'' where
  index := Nat.le_trans h.index h'.index
  faults := h.faults ∘ h'.faults
  isAbandoned ha := (h'.isAbandoned ha).elim
    (fun hc => (h.isAbandoned hc).imp_right fun hne hnil => hne (h'.faults hnil)) .inr

theorem noting_ne_nil {c : Cursor} (hc : c.isAbandoned = false) (expected : String) :
    (c.noting expected).faults ≠ [] := by
  simp [noting, hc]

theorem leads_noting (c : Cursor) (expected : String) : c.Leads (c.noting expected) := by
  unfold noting
  split
  · exact .refl c
  · exact ⟨Nat.le_refl _, nofun, .inl⟩

end Cursor

/-- A production of the grammar, reading an `α`.  It gives no token back, and takes no
fault back. -/
structure Production (α : Type) where
  run : Cursor → α × Cursor
  leads : ∀ c : Cursor, c.Leads (run c).2

namespace Production

/-- Tokens that have been taken stay taken. -/
theorem forward {α : Type} (p : Production α) (c : Cursor) : c.index ≤ (p.run c).2.index :=
  (p.leads c).index

instance : Monad Production where
  pure a := ⟨fun c => (a, c), Cursor.Leads.refl⟩
  bind p f :=
    ⟨fun c =>
      let (a, c) := p.run c
      (f a).run c,
      fun c => (p.leads c).trans ((f _).leads _)⟩

/-- Looks at the cursor, which stays where it is. -/
def look {α : Type} (f : Cursor → α) : Production α := ⟨fun c => (f c, c), Cursor.Leads.refl⟩

/-- Moves the cursor on. -/
def move (f : Cursor → Cursor) (hf : ∀ c : Cursor, c.Leads (f c)) : Production Unit :=
  ⟨fun c => ((), f c), hf⟩

def peek : Production (Option Token) := look fun c => c.ahead[0]?.map (·.token)

/-- The token behind the next one, unless a comma stands between the two. -/
def peekSecond : Production (Option Token) :=
  look fun c =>
    match c.ahead[1]? with
    | some second => if second.afterComma then none else some second.token
    | none => none

def here : Production Nat := look fun c => c.index

def remaining : Production Nat := look fun c => c.ahead.length

/-- Takes the next token, if there is one. -/
def bump : Production Unit :=
  move
    (fun c =>
      match c.ahead with
      | [] => c
      | _ :: ahead => { c with ahead, index := c.index + 1 })
    fun c => by
      split
      · exact .refl c
      · exact ⟨Nat.le_succ _, id, .inl⟩

/-- Throws the next token out of the text, if there is one. -/
def discard : Production Unit :=
  move
    (fun c =>
      match c.ahead with
      | [] => c
      | _ :: ahead => { c with ahead, discarded := c.written :: c.discarded })
    fun c => by
      split
      · exact .refl c
      · exact ⟨Nat.le_refl _, id, .inl⟩

/-- Notes that the grammar asks for something else here. -/
def fault (expected : String) : Production Unit :=
  move (·.noting expected) fun c => c.leads_noting expected

/-- Notes a fault and reads no further. -/
def abandon (expected : String) : Production Unit :=
  move (fun c => { c.noting expected with ahead := [], isAbandoned := true }) fun c => by
    have hnoted := c.leads_noting expected
    refine ⟨hnoted.index, hnoted.faults, fun _ => ?_⟩
    cases hc : c.isAbandoned with
    | true => exact .inl rfl
    | false => exact .inr (c.noting_ne_nil hc expected)

/-- Notes a fault and takes the token that stands in the way. -/
def faultAndBump (expected : String) : Production Unit := do
  fault expected
  bump

/-- The run of tokens from number `start` to the next one. -/
def extentFrom (start : Nat) : Production Extent := do
  return ⟨start, ← here⟩

def sees (mark : Punctuator) : Production Bool := do
  return (← peek) == some (.punctuator mark)

def seesWord (word : String) : Production Bool := do
  return (← peek) == some (.name word)

/-- Takes a punctuator if it comes next, and says whether it did. -/
def eat (mark : Punctuator) : Production Bool := do
  if ← sees mark then
    bump
    return true
  else
    return false

/-- Takes a punctuator that the grammar asks for. -/
def expect (mark : Punctuator) : Production Unit := do
  unless ← eat mark do
    fault mark.text

/-- Takes a name if one comes next. -/
def name? : Production (Option Name) := do
  match ← peek with
  | some (.name text) =>
    let token ← here
    bump
    return some ⟨text, token⟩
  | _ => return none

/-- Takes a name that the grammar asks for. -/
def name : Production (Option Name) := do
  match ← name? with
  | some n => return some n
  | none =>
    fault "a name"
    return none

/-- Runs `item` while the next token satisfies `more`, at most `bound` times. -/
def manyWithin {α : Type} (more : Token → Bool) (item : Production α) :
    Nat → Production (List α)
  | 0 => return []
  | bound + 1 => do
    match ← peek with
    | some token =>
      if more token then
        let first ← item
        let others ← manyWithin more item bound
        return first :: others
      else
        return []
    | none => return []

/-- Runs `item` while the next token satisfies `more`. -/
def many {α : Type} (more : Token → Bool) (item : Production α) : Production (List α) := do
  manyWithin more item (← remaining)

/-- Takes names and runs `item` on each, at most `bound` times. -/
def manyNamedWithin {α : Type} (item : Name → Production α) : Nat → Production (List α)
  | 0 => return []
  | bound + 1 => do
    match ← name? with
    | some n =>
      let first ← item n
      let others ← manyNamedWithin item bound
      return first :: others
    | none => return []

/-- While a name comes next, takes it and runs `item` on it. -/
def manyNamed {α : Type} (item : Name → Production α) : Production (List α) := do
  manyNamedWithin item (← remaining)

/-- One or more items with a punctuator between them, and perhaps another
before the first. -/
def separated {α : Type} (mark : Punctuator) (item : Production α) : Production (List α) := do
  let _ ← eat mark
  let first ← item
  let others ← many (· == .punctuator mark) do
    bump
    item
  return first :: others

end Production

end GraphLint
