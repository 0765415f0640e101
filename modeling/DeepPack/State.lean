import DeepPack.Library.Scopes
import Mathlib.Logic.Function.Basic

/-! The stores a parse context hands around (`state.hpp`): links, which are small values kept
as bytes, and states, which are objects the store owns.

Scoped objects change a store for as long as they live. The keys are any type, and the
type a key is used with is a function of the key. -/
namespace DeepPack
open Library

/-- `sizeof(cncr::uuid)`, the bytes a link is kept in. -/
def erasedSize : Nat := 16

/-- The types of links: they are compared, they have a default value, and they are no more
than their bytes (`state_link`). Of the comparison it is only asked that the default value
equals itself. -/
class StateLink (T : Type) extends BEq T, Inhabited T where
  size : Nat
  size_le : size ≤ erasedSize
  toBytes : T → List UInt8
  ofBytes : List UInt8 → T
  length_toBytes : ∀ v, (toBytes v).length = size
  ofBytes_toBytes : ∀ v, ofBytes (toBytes v) = v
  default_beq : (default == (default : T)) = true

section Erasure
variable {T : Type} [StateLink T]

/-- `erasure_cast` to the erased type: the bytes of the value, padded with zeros. -/
def erasureCast (value : T) : List UInt8 :=
  StateLink.toBytes value ++ List.replicate (erasedSize - StateLink.size T) 0

/-- The value in front of its padding (`erasure_pad`). -/
def erasedValue (bytes : List UInt8) : T := StateLink.ofBytes (bytes.take (StateLink.size T))

@[simp] theorem length_erasureCast (value : T) : (erasureCast value).length = erasedSize := by
  have hle : StateLink.size T ≤ erasedSize := StateLink.size_le
  simp [erasureCast, StateLink.length_toBytes]
  omega

@[simp] theorem erasedValue_erasureCast (value : T) : (erasedValue (erasureCast value) : T) = value := by
  have htake : (erasureCast value).take (StateLink.size T) = StateLink.toBytes value := by
    rw [erasureCast]
    exact List.take_left' (StateLink.length_toBytes value)
  rw [erasedValue, htake]
  exact StateLink.ofBytes_toBytes value

end Erasure

/-- A link of one byte. -/
structure ByteLink where
  byte : UInt8
  deriving DecidableEq, Inhabited, Repr

instance : StateLink ByteLink where
  size := 1
  size_le := by decide
  toBytes value := [value.byte]
  ofBytes bytes := ⟨bytes.headD 0⟩
  length_toBytes _ := rfl
  ofBytes_toBytes _ := rfl
  default_beq := rfl

section Links
variable {κ : Type} {T : κ → Type} [∀ k, StateLink (T k)]

/-- A `link_store`: what it keeps for a key are the bytes of a value other than the default one. -/
@[ext] structure LinkStore (κ : Type) (T : κ → Type) [∀ k, StateLink (T k)] where
  entries : κ → Option (List UInt8)
  stored : ∀ k bytes, entries k = some bytes → ∃ value : T k, (value == default) = false ∧ bytes =
  erasureCast value

def LinkStore.contains (links : LinkStore κ T) (key : κ) : Bool := (links.entries key).isSome

def LinkStore.tryAccess (links : LinkStore κ T) (key : κ) : T key :=
  match links.entries key with
  | some bytes => erasedValue bytes
  | none => default

variable [DecidableEq κ]

/-- An entry set or overwritten, with a value that may be kept. -/
def LinkStore.assign (links : LinkStore κ T) (key : κ) (value : T key) (h : (value == default) = false) :
    LinkStore κ T where
  entries := Function.update links.entries key (some (erasureCast value))
  stored := by
    intro k bytes hk
    by_cases hkey : k = key
    · subst hkey
      simp only [Function.update_self, Option.some.injEq] at hk
      exact ⟨value, h, hk.symm⟩
    · rw [Function.update_of_ne hkey] at hk
      exact links.stored k bytes hk

def LinkStore.erase (links : LinkStore κ T) (key : κ) : LinkStore κ T where
  entries := Function.update links.entries key none
  stored := by
    intro k bytes hk
    by_cases hkey : k = key
    · subst hkey
      simp at hk
    · rw [Function.update_of_ne hkey] at hk
      exact links.stored k bytes hk

/-- The value the key had and the store with the new one. -/
def LinkStore.replace (links : LinkStore κ T) (key : κ) (value : T key) : T key × LinkStore κ T :=
  match links.entries key with
  | none =>
    if h : (value == default) = false then (default, links.assign key value h) else (default, links)
  | some bytes =>
    (erasedValue bytes,
      if h : (value == default) = false then links.assign key value h else links.erase key)

/-- What is kept for a value. -/
def entryOf {T : Type} [StateLink T] (value : T) : Option (List UInt8) :=
  if (value == default) = false then some (erasureCast value) else none

omit [DecidableEq κ] in
/-- What the store has for a key is what it keeps for the key's link. -/
theorem LinkStore.entries_eq (links : LinkStore κ T) (key : κ) :
    links.entries key = entryOf (links.tryAccess key) := by
  cases hentry : links.entries key with
  | none => simp [LinkStore.tryAccess, hentry, entryOf, StateLink.default_beq]
  | some bytes =>
    obtain ⟨value, hvalue, rfl⟩ := links.stored key bytes hentry
    simp [LinkStore.tryAccess, hentry, entryOf, hvalue]

omit [DecidableEq κ] in
/-- A key is there if and only if its link is not the default value. -/
theorem LinkStore.contains_iff (links : LinkStore κ T) (key : κ) :
    links.contains key = true ↔ (links.tryAccess key == default) = false := by
  rw [LinkStore.contains, links.entries_eq key, entryOf]
  split
  · simp [*]
  · simp [*]

@[simp] theorem LinkStore.replace_fst (links : LinkStore κ T) (key : κ) (value : T key) :
    (links.replace key value).1 = links.tryAccess key := by
  unfold LinkStore.replace LinkStore.tryAccess
  cases links.entries key with
  | none => simp only; split <;> rfl
  | some bytes => rfl

/-- All four cases of `replace` leave the entry of the new value. -/
theorem LinkStore.entries_replace (links : LinkStore κ T) (key : κ) (value : T key) :
    (links.replace key value).2.entries = Function.update links.entries key (entryOf value) := by
  unfold LinkStore.replace entryOf
  split
  · rename_i hentry
    split
    · rfl
    · rw [← hentry, Function.update_eq_self]
  · split
    · rfl
    · rfl

theorem LinkStore.tryAccess_replace_self (links : LinkStore κ T) (key : κ) (value : T key) :
    (links.replace key value).2.tryAccess key = if (value == default) = false then value else default := by
  rw [LinkStore.tryAccess, LinkStore.entries_replace, Function.update_self, entryOf]
  cases hvalue : value == default with
  | false => simp
  | true => simp

theorem LinkStore.tryAccess_replace_of_ne (links : LinkStore κ T) {key other : κ} (value : T key)
    (h : other ≠ key) : (links.replace key value).2.tryAccess other = links.tryAccess other := by
  simp only [LinkStore.tryAccess]
  rw [LinkStore.entries_replace, Function.update_of_ne h]

/-- The value a link had, put back: the store is the one before. -/
theorem LinkStore.replace_replace (links : LinkStore κ T) (key : κ) (value : T key) :
    ((links.replace key value).2.replace key (links.replace key value).1).2 = links := by
  ext1
  rw [LinkStore.entries_replace, LinkStore.entries_replace, Function.update_idem, LinkStore.replace_fst,
    ← links.entries_eq key, Function.update_eq_self]

end Links

section States
variable {κ : Type} {S : κ → Type}

/-- A `state_store`: it owns the objects of its keys. -/
@[ext] structure StateStore (κ : Type) (S : κ → Type) where
  entries : ∀ k, Option (S k)

def StateStore.tryAccess (states : StateStore κ S) (key : κ) : Option (S key) := states.entries key

variable [DecidableEq κ]

/-- The object of the key, and whether it was made by this call. -/
def StateStore.emplace (states : StateStore κ S) (key : κ) (made : S key) :
    (S key × Bool) × StateStore κ S :=
  match states.entries key with
  | some found => ((found, false), states)
  | none => ((made, true), ⟨Function.update states.entries key (some made)⟩)

def StateStore.erase (states : StateStore κ S) (key : κ) : StateStore κ S :=
  ⟨Function.update states.entries key none⟩

theorem StateStore.tryAccess_emplace_self (states : StateStore κ S) (key : κ) (made : S key) :
    (states.emplace key made).2.tryAccess key = some ((states.tryAccess key).getD made) := by
  unfold StateStore.emplace StateStore.tryAccess
  split
  · simp [*]
  · simp [*]

theorem StateStore.tryAccess_emplace_of_ne (states : StateStore κ S) {key other : κ} (made : S key)
    (h : other ≠ key) : (states.emplace key made).2.tryAccess other = states.tryAccess other := by
  unfold StateStore.emplace StateStore.tryAccess
  split
  · rfl
  · exact Function.update_of_ne h _ _

/-- Erasing what was made for the key gives the store before, and nothing was made where there was an object. -/
theorem StateStore.erase_emplace (states : StateStore κ S) (key : κ) (made : S key) :
    (if (states.emplace key made).1.2 then (states.emplace key made).2.erase key
      else (states.emplace key made).2) = states := by
  unfold StateStore.emplace
  split
  · rfl
  · rename_i hentry
    ext1
    simp only [if_true, StateStore.erase]
    rw [Function.update_idem, ← hentry, Function.update_eq_self]

end States

section Scopes
variable {κ : Type} [DecidableEq κ] {T S : κ → Type} [∀ k, StateLink (T k)] [∀ k, Inhabited (S k)]

structure Stores (κ : Type) (T S : κ → Type) [∀ k, StateLink (T k)] where
  links : LinkStore κ T
  states : StateStore κ S

/-- What a scoped object is constructed from: a `scoped_link` of a key and a value or a
`scoped_state` of a key. -/
inductive Scope (κ : Type) (T : κ → Type) where
  | link (key : κ) (value : T key)
  | state (key : κ)

/-- The members of a scoped object. -/
inductive ScopedObject (κ : Type) (T : κ → Type) where
  | scopedLink (key : κ) (previousValue : T key)
  | scopedState (key : κ) (owned : Bool)

/-- The constructors of the scoped objects. -/
def construct : Scope κ T → Stores κ T S → ScopedObject κ T × Stores κ T S
  | .link key value, now =>
    (.scopedLink key (now.links.replace key value).1, { now with links := (now.links.replace key value).2 })
  | .state key, now =>
    (.scopedState key (now.states.emplace key default).1.2,
      { now with states := (now.states.emplace key default).2 })

/-- Their destructors. -/
def destroy : ScopedObject κ T → Stores κ T S → Stores κ T S
  | .scopedLink key previousValue, now => { now with links := (now.links.replace key previousValue).2 }
  | .scopedState key owned, now => { now with states := if owned then now.states.erase key else now.states }

theorem destroy_construct (scope : Scope κ T) (now : Stores κ T S) :
    destroy (construct scope now).1 (construct scope now).2 = now := by
  cases scope with
  | link key value => simp only [construct, destroy, LinkStore.replace_replace]
  | state key => simp only [construct, destroy, StateStore.erase_emplace]

def scoping : Scoping (Stores κ T S) (Scope κ T) (ScopedObject κ T) := ⟨construct, destroy, destroy_construct⟩

/-- The value a key's link should have inside the scopes: that of the innermost one of the key. -/
def visible (outside : ∀ k, T k) : List (Scope κ T) → ∀ k, T k
  | [] => outside
  | .link key value :: scopes => Function.update (visible outside scopes) key value
  | .state _ :: scopes => visible outside scopes

/-- Whether one of the scopes is a `scoped_state` of the key. -/
def stated (scopes : List (Scope κ T)) (key : κ) : Bool :=
  scopes.any fun
    | .link _ _ => false
    | .state k => decide (k = key)

/-- A value returned for another: the same value, or the default one where the other compares equal to it. -/
def Returned {T : Type} [StateLink T] (got value : T) : Prop :=
  got = value ∨ (value == default) = true ∧ got = default

theorem returned_visible (start : Stores κ T S) (scopes : List (Scope κ T)) (key : κ) :
    Returned ((enterAll scoping start scopes).2.links.tryAccess key)
    (visible start.links.tryAccess scopes key) := by
  induction scopes with
  | nil => exact Or.inl rfl
  | cons scope scopes ih =>
    cases scope with
    | state _ => exact ih
    | link k value =>
      simp only [enterAll, scoping, construct, visible]
      by_cases hkey : key = k
      · subst hkey
        rw [LinkStore.tryAccess_replace_self, Function.update_self]
        cases hvalue : value == default with
        | false => exact Or.inl rfl
        | true => exact Or.inr ⟨hvalue, rfl⟩
      · rw [LinkStore.tryAccess_replace_of_ne _ _ hkey, Function.update_of_ne hkey]
        exact ih

theorem tryAccess_stated (start : Stores κ T S) (scopes : List (Scope κ T)) (key : κ) :
    (enterAll scoping start scopes).2.states.tryAccess key =
      (start.states.tryAccess key).or (if stated scopes key then some default else none) := by
  induction scopes with
  | nil => simp [stated]
  | cons scope scopes ih =>
    cases scope with
    | link _ _ => simpa [enterAll, scoping, construct, stated] using ih
    | state k =>
      simp only [enterAll, scoping, construct]
      by_cases hkey : key = k
      · subst hkey
        rw [StateStore.tryAccess_emplace_self]
        have hih := ih
        simp only [scoping] at hih
        rw [hih]
        cases start.states.tryAccess key with
        | some found => simp
        | none => cases hs : stated scopes key <;> simp [stated]
      · rw [StateStore.tryAccess_emplace_of_ne _ _ hkey]
        simpa [stated, Ne.symm hkey, scoping] using ih

/-- A well nested run of scoped objects: each link inside is that of the innermost scope of its
key, a key is kept if and only if its link is not the default value, an object that was there
stays and any other is there as long as a scope of its key is, and after the last scope the
stores are what they were. -/
theorem scopes_restore (start : Stores κ T S) (events : List (ScopeEvent (Scope κ T))) {scopes : List (Scope κ T)}
    (h : openScopes events [] = some scopes) :
    ∃ objects now, runScopes scoping events ([], start) = some (objects, now) ∧
      (∀ key, Returned (now.links.tryAccess key) (visible start.links.tryAccess scopes key)) ∧
      (∀ key, now.links.contains key = true ↔ (now.links.tryAccess key == default) = false) ∧
      (∀ key, now.states.tryAccess key =
        (start.states.tryAccess key).or (if stated scopes key then some default else none)) ∧
      (scopes = [] → now = start) := by
  have hrun := runScopes_enterAll scoping events start []
  rw [h, enterAll_nil] at hrun
  refine ⟨_, _, hrun, returned_visible start scopes, ?_, tryAccess_stated start scopes, ?_⟩
  · intro key
    exact LinkStore.contains_iff _ key
  · intro hclosed
    simp [hclosed]

/-- A link hidden by the default value and shown again, then a state. -/
theorem scopes_restore_nested :
    let start : Stores Nat (fun _ => ByteLink) (fun _ => Nat) := ⟨⟨fun _ => none, by simp⟩, ⟨fun _ => none⟩⟩
    let scopes : List (Scope Nat fun _ => ByteLink) := [.state 2, .link 1 ⟨7⟩]
    ∃ objects now, runScopes scoping [.enter (.link 1 ⟨7⟩), .enter (.link 1 ⟨0⟩), .leave, .enter (.state 2)]
        ([], start) = some (objects, now) ∧
      (∀ key, Returned (now.links.tryAccess key) (visible start.links.tryAccess scopes key)) ∧
      (∀ key, now.links.contains key = true ↔ (now.links.tryAccess key == default) = false) ∧
      (∀ key, now.states.tryAccess key =
        (start.states.tryAccess key).or (if stated scopes key then some default else none)) ∧
      (scopes = [] → now = start) := by
  intro start scopes
  exact scopes_restore start _ (rfl : openScopes _ [] = some scopes)

end Scopes
end DeepPack
