import DeepPack.Library.Carrying
import DeepPack.Streams.OutputContract

/-! Outputs that may fail at any call.

`TruthfulOutput` is what is left of the contract of an output buffer when the stream may
fail whenever it is asked, and may even grow by too little: what it did take is what it
was given. Such a stream can be rescued: where it fails, the rescued stream goes on
without it, and promises nothing any more. -/
namespace DeepPack
open Library OutputBuffer

structure TruthfulOutput (σ : Type) [OutputStream σ] where
  /-- The stream holds these bytes. -/
  Holds : OutputBuffer σ → List UInt8 → Prop
  ensure : ∀ {s out n t}, Holds s out → n ≤ minimumOutputBufferSize → ensureSize n s = (.ok (), t) → Holds t out
  /-- What is not committed does not count. -/
  put : ∀ {s out i bytes}, Holds s out → i + bytes.length ≤ s.free.length → Holds (s.put i bytes) out
  commit : ∀ {s out n}, Holds s out → n ≤ s.free.length → Holds (s.commit n) (out ++ s.free.take n)
  bulk : ∀ {s out bytes t}, Holds s out → bulkWrite bytes s = (.ok (), t) → Holds t (out ++ bytes)

/-- An honest output is truthful. -/
def OutputContract.truthful {σ : Type} [OutputStream σ] (C : OutputContract σ) : TruthfulOutput σ where
  Holds := C.Holds
  ensure := by
    intro s out n t hs hn hrun
    by_cases hfits : C.limit.Fits (out.length + n)
    · obtain ⟨u, hu, hout, -⟩ := C.ensure hs hn hfits
      cases hrun.symm.trans hu
      exact hout
    · obtain ⟨e, u, hu, -⟩ := C.ensure_full hs hn hfits
      cases hrun.symm.trans hu
  put := C.put
  commit := C.commit
  bulk := by
    intro s out bytes t hs hrun
    by_cases hfits : C.limit.Fits (out.length + bytes.length)
    · obtain ⟨u, hu, hout⟩ := C.bulk hs hfits
      cases hrun.symm.trans hu
      exact hout
    · obtain ⟨e, u, k, hu, -⟩ := C.bulk_full hs hfits
      cases hrun.symm.trans hu

/-! ### The rescued stream -/

/-- A stream, or nothing where it was given up. -/
inductive Forsaken (σ : Type) where
  | stream (derived : σ)
  | nothing

namespace OutputBuffer
variable {σ τ : Type}

/-- The same buffer, in front of another stream. -/
def map (f : σ → τ) (s : OutputBuffer σ) : OutputBuffer τ := ⟨s.behind, s.free, f s.derived⟩

end OutputBuffer

namespace TruthfulOutput
variable {σ : Type} {s t : OutputBuffer σ} {n : Nat} {bytes out : List UInt8}

/-- The call on the stream, unless it fails or leaves less room. -/
def orForsake (room : Nat) (x : Output σ Unit) : Output (Forsaken σ) Unit := fun s =>
  match s.derived with
  | .nothing => (.ok (), ⟨[], List.replicate room 0, .nothing⟩)
  | .stream derived =>
    match x ⟨s.behind, s.free, derived⟩ with
    | (.ok (), t) => (.ok (), if t.free.length < room then ⟨[], List.replicate room 0, .nothing⟩ else t.map .stream)
    | (.error _, _) => (.ok (), ⟨[], List.replicate room 0, .nothing⟩)

theorem orForsake_ok {x : Output σ Unit} {room : Nat} (hx : x s = (.ok (), t)) (hroom : room ≤ t.free.length) :
    orForsake room x (s.map .stream) = (.ok (), t.map .stream) := by
  simp only [orForsake, map, hx, if_neg (Nat.not_lt.mpr hroom)]

/-- Given up, or where the stream is. -/
theorem orForsake_cases (room : Nat) (x : Output σ Unit) (s : OutputBuffer σ) :
    orForsake room x (s.map .stream) = (.ok (), ⟨[], List.replicate room 0, .nothing⟩) ∨
      ∃ t, x s = (.ok (), t) ∧ room ≤ t.free.length ∧ orForsake room x (s.map .stream) = (.ok (), t.map .stream) := by
  rcases hx : x s with ⟨e | _, t⟩
  · exact .inl (by simp only [orForsake, map, hx])
  · by_cases hroom : t.free.length < room
    · exact .inl (by simp only [orForsake, map, hx, if_pos hroom])
    · exact .inr ⟨t, rfl, Nat.not_lt.mp hroom, orForsake_ok hx (Nat.not_lt.mp hroom)⟩

theorem rescued_cases (s : OutputBuffer (Forsaken σ)) :
    (∃ s₀ : OutputBuffer σ, s = s₀.map .stream) ∨ s = ⟨s.behind, s.free, .nothing⟩ := by
  obtain ⟨behind, free, derived⟩ := s
  cases derived with
  | stream derived => exact .inl ⟨⟨behind, free, derived⟩, rfl⟩
  | nothing => exact .inr rfl

variable [I : OutputStream σ] {T : TruthfulOutput σ}

/-- Where the stream fails, it is given up, and there is room for anything. -/
instance : OutputStream (Forsaken σ) where
  doGrow n := orForsake n (I.doGrow n)
  doBulkWrite bytes := orForsake 0 (I.doBulkWrite bytes)

/-! ### It is honest -/

/-- Of a stream that was given up nothing is promised. -/
def RescuedHolds (T : TruthfulOutput σ) (s : OutputBuffer (Forsaken σ)) (out : List UInt8) : Prop :=
  match s.derived with
  | .stream derived => T.Holds ⟨s.behind, s.free, derived⟩ out
  | .nothing => True

theorem rescued_ensure {s : OutputBuffer (Forsaken σ)} (hs : T.RescuedHolds s out) (hn : n ≤ minimumOutputBufferSize) :
    ∃ t, ensureSize n s = (.ok (), t) ∧ T.RescuedHolds t out ∧ n ≤ t.free.length := by
  by_cases hroom : n ≤ s.free.length
  · exact ⟨s, ensureSize_enough hroom, hs, hroom⟩
  have hgrow := ensureSize_grow (Nat.lt_of_not_le hroom)
  have hforsaken : n ≤ (List.replicate n (0 : UInt8)).length := List.length_replicate.ge
  rcases rescued_cases s with ⟨s₀, rfl⟩ | hnothing
  · rcases orForsake_cases n (I.doGrow n) s₀ with hrun | ⟨t, ht, henough, hrun⟩
    · exact ⟨_, hgrow.trans hrun, trivial, hforsaken⟩
    · exact ⟨_, hgrow.trans hrun, T.ensure hs hn ((ensureSize_grow (s := s₀) (Nat.lt_of_not_le hroom)).trans ht), henough⟩
  · rw [hnothing] at hgrow ⊢
    exact ⟨_, hgrow, trivial, hforsaken⟩

/-- Behind a full buffer the stream is asked. -/
theorem bulkWrite_across {τ : Type} [OutputStream τ] {s : OutputBuffer τ} (h : s.free.length < bytes.length) :
    bulkWrite bytes s = OutputStream.doBulkWrite (bytes.drop s.free.length)
      ⟨s.behind ++ bytes.take s.free.length, [], s.derived⟩ := by
  obtain ⟨⟨behind, free, derived⟩, ht, rfl, rfl, rfl⟩ := bulkWrite_full h
  exact ht

theorem rescued_bulk {s : OutputBuffer (Forsaken σ)} (hs : T.RescuedHolds s out) :
    ∃ t, bulkWrite bytes s = (.ok (), t) ∧ T.RescuedHolds t (out ++ bytes) := by
  rcases rescued_cases s with ⟨s₀, rfl⟩ | hnothing
  · by_cases hroom : bytes.length ≤ s₀.free.length
    · obtain ⟨⟨behind, free, derived⟩, ht, rfl, rfl, rfl⟩ := bulkWrite_enough hroom
      obtain ⟨⟨behind, free, derived⟩, ht', rfl, rfl, rfl⟩ := bulkWrite_enough (s := s₀.map Forsaken.stream) hroom
      exact ⟨_, ht', T.bulk hs ht⟩
    · have hlt := Nat.lt_of_not_le hroom
      have hacross := bulkWrite_across (s := s₀.map Forsaken.stream) hlt
      rcases orForsake_cases 0 (I.doBulkWrite (bytes.drop s₀.free.length))
        ⟨s₀.behind ++ bytes.take s₀.free.length, [], s₀.derived⟩ with hrun | ⟨t, ht, -, hrun⟩
      · exact ⟨_, hacross.trans hrun, trivial⟩
      · exact ⟨_, hacross.trans hrun, T.bulk hs ((bulkWrite_across hlt).trans ht)⟩
  · rw [hnothing]
    by_cases hroom : bytes.length ≤ s.free.length
    · obtain ⟨⟨behind, free, derived⟩, ht, -, -, rfl⟩ :=
        bulkWrite_enough (s := (⟨s.behind, s.free, .nothing⟩ : OutputBuffer (Forsaken σ))) hroom
      exact ⟨_, ht, trivial⟩
    · exact ⟨_, bulkWrite_across (Nat.lt_of_not_le hroom), trivial⟩

variable (T) in
/-- The rescued stream keeps the whole contract. -/
def honest : OutputContract (Forsaken σ) where
  limit := none
  Holds := T.RescuedHolds
  room := fun _ => Limit.fits_none _
  ensure := fun hs hn _ => rescued_ensure hs hn
  ensure_full := fun _ _ hno => absurd (Limit.fits_none _) hno
  put := by
    intro s out i bytes hs hroom
    rcases rescued_cases s with ⟨s₀, rfl⟩ | hnothing
    · exact T.put hs hroom
    · rw [hnothing]
      trivial
  commit := by
    intro s out n hs hroom
    rcases rescued_cases s with ⟨s₀, rfl⟩ | hnothing
    · exact T.commit hs hroom
    · rw [hnothing]
      trivial
  bulk := fun hs _ => rescued_bulk hs
  bulk_full := fun _ hno => absurd (Limit.fits_none _) hno

end TruthfulOutput
end DeepPack
