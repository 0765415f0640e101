import DeepPack.Library.Action
import DeepPack.Library.Words

/-! Memory that is written in place, signed words, and runs by what they come to. -/
namespace DeepPack.Library

/-! ### Memory -/

section Memory
variable {β : Type} {memory bytes : List β} {i n : Nat}

/-- The memory with `bytes` written at offset `i`. -/
def overwrite (i : Nat) (bytes memory : List β) : List β :=
  memory.take i ++ bytes ++ memory.drop (i + bytes.length)

theorem overwrite_length (h : i + bytes.length ≤ memory.length) :
    (overwrite i bytes memory).length = memory.length := by
  simp only [overwrite, List.length_append, List.length_take, List.length_drop]
  omega

/-- What is in front of a part of the bytes written. -/
theorem overwrite_take_add (h : i ≤ memory.length) (hn : n ≤ bytes.length) :
    (overwrite i bytes memory).take (i + n) = memory.take i ++ bytes.take n := by
  have hlen : (memory.take i).length = i := List.length_take_of_le h
  rw [overwrite, List.append_assoc, List.take_append, hlen, Nat.add_sub_cancel_left,
    List.take_append_of_le_length hn,
    List.take_of_length_le (by omega)]

theorem overwrite_take (bytes : List β) (h : i ≤ memory.length) :
    (overwrite i bytes memory).take (i + bytes.length) = memory.take i ++ bytes := by
  rw [overwrite_take_add h (Nat.le_refl _), List.take_length]

theorem overwrite_take_before (bytes : List β) (h : i ≤ memory.length) :
    (overwrite i bytes memory).take i = memory.take i := by
  have htake : (overwrite i bytes memory).take (i + 0) = _ := overwrite_take_add h (Nat.zero_le _)
  rwa [Nat.add_zero, List.take_zero, List.append_nil] at htake

theorem overwrite_front (bytes memory : List β) : (overwrite 0 bytes memory).take bytes.length = bytes := by
  rw [overwrite, List.take_zero, List.nil_append, List.take_left]

/-- The rest of the memory does not count. -/
theorem take_overwrite (h : i + bytes.length ≤ n) (hn : n ≤ memory.length) :
    (overwrite i bytes memory).take n = overwrite i bytes (memory.take n) := by
  have hfront : (memory.take i ++ bytes).length = i + bytes.length := by
    rw [List.length_append, List.length_take_of_le (by omega)]
  rw [overwrite, overwrite, List.take_append, hfront, List.take_of_length_le (hfront.le.trans h), List.take_take,
    Nat.min_eq_left (by omega), List.drop_take]

theorem overwrite_append (front : List β) :
    overwrite (front.length + i) bytes (front ++ memory) = front ++ overwrite i bytes memory := by
  rw [overwrite, overwrite, List.take_length_add_append, Nat.add_assoc, List.drop_length_add_append]
  simp only [List.append_assoc]

end Memory

/-! ### Signed words -/

/-- What becomes of a number in a signed word. -/
def toSigned (w : Nat) (n : Int) : Int := n.bmod (2 ^ w)

theorem toSigned_of_fits {w : Nat} {n : Int} (hle : -(2 ^ w : Nat) ≤ n * 2) (hlt : n * 2 < (2 ^ w : Nat)) :
    toSigned w n = n := Int.bmod_eq_of_le_mul_two hle hlt

theorem toSigned_natCast {w k : Nat} (h : k * 2 < 2 ^ w) : toSigned w k = k := by
  refine toSigned_of_fits ?_ ?_
  · omega
  · exact_mod_cast h

/-- The upper half of the unsigned words is negative. -/
theorem toSigned_of_large {w : Nat} {n : Int} (hle : (2 ^ w : Nat) ≤ n * 2) (hlt : n < (2 ^ w : Nat)) :
    toSigned w n = n - (2 ^ w : Nat) := by
  have hsub : toSigned w (n - (2 ^ w : Nat)) = n - (2 ^ w : Nat) := toSigned_of_fits (by omega) (by omega)
  rw [← hsub]
  exact (Int.sub_bmod_right n (2 ^ w)).symm

theorem sub_toSigned_emod (w : Nat) (m n : Int) : (m - toSigned w n) % 2 ^ w = (m - n) % 2 ^ w := by
  have hmod : toSigned w n % 2 ^ w = n % 2 ^ w := by
    have hcast : ((2 ^ w : Nat) : Int) = 2 ^ w := Int.natCast_pow 2 w
    rw [← hcast, toSigned, Int.bmod_emod]
  rw [Int.sub_emod, hmod, ← Int.sub_emod]

namespace Action
variable {ε σ α β : Type} {x : Action ε σ α} {s : σ} {Q : α → σ → Prop}

/-! ### What a run comes to -/

theorem modify_bind_apply (g : σ → σ) (f : Unit → Action ε σ β) (s : σ) :
    ((modify g : Action ε σ Unit) >>= f) s = f () (g s) := rfl

theorem bind_congr {y : Action ε σ α} {u : σ} (f : α → Action ε σ β) (h : x s = y u) :
    (x >>= f) s = (y >>= f) u := by
  rw [bind_apply, bind_apply, h]

theorem bind_bind {γ : Type} (x : Action ε σ α) (f : α → Action ε σ β) (g : β → Action ε σ γ) (s : σ) :
    ((x >>= f) >>= g) s = (x >>= fun a => f a >>= g) s := by
  rw [bind_apply, bind_apply, bind_apply]
  rcases x s with ⟨e | a, t⟩
  · rfl
  · rfl

theorem forList_append (f : α → Action ε σ Unit) (l l' : List α) :
    forList f (l ++ l') = forList f l >>= fun _ => forList f l' := by
  induction l with
  | nil => rfl
  | cons a l ih =>
    funext s
    show (f a >>= fun _ => forList f (l ++ l')) s = _
    rw [ih]
    exact (bind_bind (f a) (fun _ => forList f l) (fun _ => forList f l') s).symm

/-- From `s` the action succeeds, and what it comes to is in `Q`. -/
def Achieves (x : Action ε σ α) (s : σ) (Q : α → σ → Prop) : Prop := ∃ a t, x s = (.ok a, t) ∧ Q a t

theorem achieves_pure {a : α} (h : Q a s) : Achieves (pure a : Action ε σ α) s Q := ⟨a, s, rfl, h⟩

theorem Achieves.bind {f : α → Action ε σ β} {R : β → σ → Prop} (hx : Achieves x s Q)
    (hf : ∀ a t, Q a t → Achieves (f a) t R) : Achieves (x >>= f) s R := by
  obtain ⟨a, t, ht, hq⟩ := hx
  obtain ⟨b, u, hu, hr⟩ := hf a t hq
  exact ⟨b, u, (bind_ok f ht).trans hu, hr⟩

/-- A step that is known. -/
theorem Achieves.step {f : α → Action ε σ β} {R : β → σ → Prop} {a : α} {t : σ} (ht : x s = (.ok a, t))
    (hf : Achieves (f a) t R) : Achieves (x >>= f) s R := by
  obtain ⟨b, u, hu, hr⟩ := hf
  exact ⟨b, u, (bind_ok f ht).trans hu, hr⟩

theorem Achieves.mono {R : α → σ → Prop} (hx : Achieves x s Q) (h : ∀ a t, Q a t → R a t) : Achieves x s R := by
  obtain ⟨a, t, ht, hq⟩ := hx
  exact ⟨a, t, ht, h a t hq⟩

theorem Achieves.of_eq {y : Action ε σ α} {u : σ} (heq : x s = y u) (hy : Achieves y u Q) : Achieves x s Q := by
  rwa [Achieves, heq]

theorem Achieves.ite_pos {c : Prop} [Decidable c] {y : Action ε σ α} (hc : c) (hx : Achieves x s Q) :
    Achieves (if c then x else y) s Q := by
  rwa [if_pos hc]

theorem Achieves.ite_neg {c : Prop} [Decidable c] {y : Action ε σ α} (hc : ¬ c) (hx : Achieves x s Q) :
    Achieves (if c then y else x) s Q := by
  rwa [if_neg hc]

/-- What the action comes to from `s`, be it a failure, is in `R`. -/
def Meets (x : Action ε σ α) (s : σ) (R : Except ε α → σ → Prop) : Prop := R (x s).1 (x s).2

section Meets
variable {R : Except ε β → σ → Prop} {f : α → Action ε σ β} {y z : Action ε σ β} {r : Except ε β} {t : σ}

theorem meets_of_eq (ht : y s = (r, t)) (h : R r t) : Meets y s R := by
  rwa [Meets, ht]

theorem Meets.of_eq (heq : y s = z t) (hz : Meets z t R) : Meets y s R := by
  rwa [Meets, heq]

theorem Meets.mono {R' : Except ε β → σ → Prop} (hy : Meets y s R) (h : ∀ r t, R r t → R' r t) :
    Meets y s R' := h _ _ hy

theorem Meets.step {a : α} (ht : x s = (.ok a, t)) (hf : Meets (f a) t R) : Meets (x >>= f) s R := by
  rwa [Meets, bind_ok f ht]

theorem Meets.stop {e : ε} (ht : x s = (.error e, t)) (h : R (.error e) t) : Meets (x >>= f) s R := by
  rwa [Meets, bind_error f ht]

/-- Only the result is another one. -/
theorem Meets.replace {b : β} (hx : Meets x s fun r t => R (r.map fun _ => b) t) :
    Meets (x >>= fun _ => pure b) s R := by
  rcases hrun : x s with ⟨e | a, t⟩ <;> rw [Meets, hrun] at hx
  · exact .stop hrun hx
  · exact .step hrun hx

theorem Meets.ite_pos {c : Prop} [Decidable c] (hc : c) (hy : Meets y s R) : Meets (if c then y else z) s R := by
  rwa [if_pos hc]

theorem Meets.ite_neg {c : Prop} [Decidable c] (hc : ¬ c) (hz : Meets z s R) :
    Meets (if c then y else z) s R := by
  rwa [if_neg hc]

end Meets

/-! ### What is kept whatever a run comes to -/

/-- The action keeps an invariant, also where it fails. -/
def Preserves (P : σ → Prop) (x : Action ε σ α) : Prop := ∀ s, P s → P (x s).2

section Preserves
variable {P : σ → Prop} {f : α → Action ε σ β} {y : Action ε σ α}

theorem preserves_pure (a : α) : Preserves P (pure a : Action ε σ α) := fun _ h => h

theorem preserves_fail (e : ε) : Preserves P (fail e : Action ε σ α) := fun _ h => h

theorem preserves_gets (g : σ → α) : Preserves P (gets g : Action ε σ α) := fun _ h => h

theorem preserves_modify {g : σ → σ} (h : ∀ s, P s → P (g s)) : Preserves P (modify g : Action ε σ Unit) := h

theorem Preserves.bind (hx : Preserves P x) (hf : ∀ a, Preserves P (f a)) : Preserves P (x >>= f) := by
  intro s hs
  have ht := hx s hs
  rcases hrun : x s with ⟨e | a, t⟩ <;> rw [hrun] at ht
  · rwa [bind_error f hrun]
  · rw [bind_ok f hrun]
    exact hf a t ht

theorem Preserves.ite {c : Prop} [Decidable c] (hx : Preserves P x) (hy : Preserves P y) :
    Preserves P (if c then x else y) := by
  split
  · exact hx
  · exact hy

theorem Preserves.forList {τ : Type} {f : τ → Action ε σ Unit} (h : ∀ a, Preserves P (f a)) (l : List τ) :
    Preserves P (forList f l) := by
  induction l with
  | nil => exact preserves_pure ()
  | cons a l ih => exact (h a).bind fun _ => ih

end Preserves

end Action
end DeepPack.Library
