import DeepPack.Streams.OutputBuffer

/-! What an emitter may rely on, and what it owes.

`OutputContract` is the contract of an output buffer: which bytes the stream holds
after which calls, with or without a limit on their number. `Emits` is what every
emitter does on every such stream: all of its bytes if they fit, and else an error
behind a prefix of them. It composes along binds. -/
namespace DeepPack
open Library

/-- The bytes a stream takes in all, if there is a limit. -/
abbrev Limit : Type := Option Nat

def Limit.Fits (limit : Limit) (n : Nat) : Prop := ∀ l ∈ limit, n ≤ l

theorem Limit.Fits.mono {limit : Limit} {m n : Nat} (h : limit.Fits n) (hmn : m ≤ n) : limit.Fits m :=
  fun l hl => hmn.trans (h l hl)

theorem Limit.fits_none (n : Nat) : Limit.Fits none n := fun _ hl => nomatch hl

theorem Limit.fits_some {l n : Nat} : Limit.Fits (some l) n ↔ n ≤ l :=
  ⟨fun h => h l rfl, fun h _ hl => Option.some.inj hl ▸ h⟩

instance (limit : Limit) (n : Nat) : Decidable (limit.Fits n) :=
  match limit with
  | none => isTrue (Limit.fits_none n)
  | some _ => decidable_of_iff _ Limit.fits_some.symm

/-- The largest size a stream must be able to provide at once. -/
def minimumOutputBufferSize : Nat := 40

structure OutputContract (σ : Type) [OutputStream σ] where
  limit : Limit
  /-- The stream holds these bytes. -/
  Holds : OutputBuffer σ → List UInt8 → Prop
  room : ∀ {s out}, Holds s out → limit.Fits (out.length + s.free.length)
  ensure : ∀ {s out n}, Holds s out → n ≤ minimumOutputBufferSize → limit.Fits (out.length + n) →
    ∃ t, OutputBuffer.ensureSize n s = (.ok (), t) ∧ Holds t out ∧ n ≤ t.free.length
  ensure_full : ∀ {s out n}, Holds s out → n ≤ minimumOutputBufferSize → ¬ limit.Fits (out.length + n) →
    ∃ e t, OutputBuffer.ensureSize n s = (.error (.errc e), t) ∧ Holds t out
  /-- What is not committed does not count. -/
  put : ∀ {s out i bytes}, Holds s out → i + bytes.length ≤ s.free.length → Holds (s.put i bytes) out
  commit : ∀ {s out n}, Holds s out → n ≤ s.free.length → Holds (s.commit n) (out ++ s.free.take n)
  bulk : ∀ {s out bytes}, Holds s out → limit.Fits (out.length + bytes.length) →
    ∃ t, OutputBuffer.bulkWrite bytes s = (.ok (), t) ∧ Holds t (out ++ bytes)
  bulk_full : ∀ {s out bytes}, Holds s out → ¬ limit.Fits (out.length + bytes.length) →
    ∃ e t k, OutputBuffer.bulkWrite bytes s = (.error (.errc e), t) ∧ Holds t (out ++ bytes.take k)

/-- On every honest stream the emitter puts out these bytes, as far as they fit. -/
def Emits {σ : Type} [OutputStream σ] (C : OutputContract σ) (x : Output σ Unit) (bytes : List UInt8) : Prop :=
  ∀ s out, C.Holds s out →
    (C.limit.Fits (out.length + bytes.length) → ∃ t, x s = (.ok (), t) ∧ C.Holds t (out ++ bytes)) ∧
    (¬ C.limit.Fits (out.length + bytes.length) →
      ∃ e t k, x s = (.error (.errc e), t) ∧ C.Holds t (out ++ bytes.take k))

namespace OutputContract
variable {σ : Type} [OutputStream σ] {C : OutputContract σ} {x y : Output σ Unit} {a b bytes : List UInt8}

theorem emits_pure : Emits C (pure ()) [] := by
  intro s out hs
  have hfits : C.limit.Fits (out.length + ([] : List UInt8).length) :=
    (C.room hs).mono (Nat.le_add_right _ _)
  exact ⟨fun _ => ⟨s, rfl, by rwa [List.append_nil]⟩, fun hno => absurd hfits hno⟩

/-- One emitter after the other: the first that finds no room ends it. -/
theorem emits_bind (hx : Emits C x a) (hy : Emits C y b) : Emits C (x >>= fun _ => y) (a ++ b) := by
  intro s out hs
  obtain ⟨hok, hfull⟩ := hx s out hs
  rw [List.length_append]
  constructor
  · intro hfits
    obtain ⟨t, ht, hout⟩ := hok (hfits.mono (by omega))
    obtain ⟨u, hu, hout'⟩ := (hy t _ hout).1 (hfits.mono (by rw [List.length_append]; omega))
    exact ⟨u, (Action.bind_ok _ ht).trans hu, by rwa [← List.append_assoc]⟩
  · intro hno
    by_cases hfits : C.limit.Fits (out.length + a.length)
    · obtain ⟨t, ht, hout⟩ := hok hfits
      have hno' : ¬ C.limit.Fits ((out ++ a).length + b.length) := fun h =>
        hno (h.mono (by rw [List.length_append]; omega))
      obtain ⟨e, u, k, hu, hout'⟩ := (hy t _ hout).2 hno'
      refine ⟨e, u, a.length + k, (Action.bind_ok _ ht).trans hu, ?_⟩
      rwa [List.take_length_add_append, ← List.append_assoc]
    · obtain ⟨e, t, k, ht, hout⟩ := hfull hfits
      refine ⟨e, t, min k a.length, Action.bind_error _ ht, ?_⟩
      rwa [List.take_append_of_le_length (Nat.min_le_right _ _), ← List.take_eq_take_min]

theorem emits_bulkWrite (bytes : List UInt8) : Emits C (OutputBuffer.bulkWrite bytes) bytes :=
  fun _ _ hs => ⟨C.bulk hs, C.bulk_full hs⟩

theorem emits_forList {τ : Type} {f : τ → Output σ Unit} {g : τ → List UInt8} {l : List τ}
    (h : ∀ v ∈ l, Emits C (f v) (g v)) : Emits C (Action.forList f l) (l.flatMap g) := by
  induction l with
  | nil => exact emits_pure
  | cons v rest ih =>
    exact emits_bind (h v List.mem_cons_self) (ih fun w hw => h w (List.mem_cons_of_mem _ hw))

/-! ### Writing into the buffer -/

/-- An emitter that works in memory it checked for. -/
theorem emits_reserve {n : Nat} (hn : n ≤ minimumOutputBufferSize) (hlen : bytes.length = n)
    (hx : ∀ s out, C.Holds s out → n ≤ s.free.length → ∃ t, x s = (.ok (), t) ∧ C.Holds t (out ++ bytes)) :
    Emits C (OutputBuffer.reserve n >>= fun _ => x) bytes := by
  intro s out hs
  rw [hlen]
  constructor
  · intro hfits
    obtain ⟨t, ht, hout, hroom⟩ := C.ensure hs hn hfits
    obtain ⟨u, hu, hout'⟩ := hx t out hout hroom
    exact ⟨u, (Action.bind_ok _ ((OutputBuffer.reserve_apply n s).trans ht)).trans hu, hout'⟩
  · intro hno
    obtain ⟨e, t, ht, hout⟩ := C.ensure_full hs hn hno
    exact ⟨e, t, 0, Action.bind_error _ ((OutputBuffer.reserve_apply n s).trans ht), by rwa [List.take_zero, List.append_nil]⟩

/-- A byte and what follows it are written, and `k` of these bytes committed. -/
theorem store_pair_commit {s : OutputBuffer σ} {out : List UInt8} (hs : C.Holds s out) (c : UInt8)
    {tail : List UInt8} {k : Nat} (hk : k ≤ 1 + tail.length) (hroom : 1 + tail.length ≤ s.free.length) :
    ∃ t, (do
      OutputBuffer.store 0 [c]
      OutputBuffer.store 1 tail
      OutputBuffer.commitWritten k) s = (.ok (), t) ∧ C.Holds t (out ++ (c :: tail).take k) := by
  have h0 : 0 + [c].length ≤ s.free.length := by simp only [List.length_singleton]; omega
  have hlen0 := OutputBuffer.put_length s h0
  have h1 : 1 + tail.length ≤ (s.put 0 [c]).free.length := by rw [hlen0]; exact hroom
  have hlen1 := OutputBuffer.put_length _ h1
  have hk' : k ≤ ((s.put 0 [c]).put 1 tail).free.length := by rw [hlen1]; omega
  have hcommit := C.commit (C.put (C.put hs h0) h1) hk'
  have htake : ((s.put 0 [c]).put 1 tail).free.take k = (c :: tail).take k := by
    have hone := OutputBuffer.put_take s h0
    have hall := OutputBuffer.put_take _ h1
    rw [Nat.zero_add, List.length_singleton, List.take_zero, List.nil_append] at hone
    rw [hone] at hall
    have hinner := List.take_take (i := k) (j := 1 + tail.length) (l := ((s.put 0 [c]).put 1 tail).free)
    rw [Nat.min_eq_left hk, hall] at hinner
    exact hinner.symm
  rw [htake] at hcommit
  refine ⟨_, ?_, hcommit⟩
  rw [Action.bind_ok _ (OutputBuffer.store_apply h0), Action.bind_ok _ (OutputBuffer.store_apply h1)]
  exact OutputBuffer.commitWritten_apply hk'

/-- One byte is written and committed. -/
theorem store_byte_commit {s : OutputBuffer σ} {out : List UInt8} (hs : C.Holds s out) (c : UInt8)
    (hroom : 1 ≤ s.free.length) :
    ∃ t, (do
      OutputBuffer.store 0 [c]
      OutputBuffer.commitWritten 1) s = (.ok (), t) ∧ C.Holds t (out ++ [c]) := by
  have h0 : 0 + [c].length ≤ s.free.length := by simp only [List.length_singleton]; omega
  have hlen := OutputBuffer.put_length s h0
  have hone := OutputBuffer.put_take s h0
  rw [Nat.zero_add, List.length_singleton, List.take_zero, List.nil_append] at hone
  have hcommit := C.commit (C.put hs h0) (n := 1) (by rw [hlen]; exact hroom)
  rw [hone] at hcommit
  refine ⟨_, ?_, hcommit⟩
  rw [Action.bind_ok _ (OutputBuffer.store_apply h0)]
  exact OutputBuffer.commitWritten_apply (by rw [hlen]; exact hroom)

end OutputContract
end DeepPack
