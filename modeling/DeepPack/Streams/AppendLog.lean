import DeepPack.Library.Runs
import DeepPack.Streams.ChunkedCalls

/-! Runs of calls on a stream into chunks, with a log of what they write. -/
namespace DeepPack
open Library

/-- The calls on a stream into chunks. -/
inductive OutputCall where
  | ensureSize (n : Nat)
  /-- Bytes are put somewhere in the buffer, before some of them are committed. -/
  | store (i : Nat) (bytes : List UInt8)
  | commitWritten (n : Nat)
  | bulkWrite (bytes : List UInt8)
  | syncOutput
  deriving DecidableEq, Repr

namespace ChunkedOutputStream
variable {s : OutputBuffer ChunkedOutputStream} {out bytes : List UInt8} {total n : Nat}

def perform : OutputCall → Output ChunkedOutputStream Unit
  | .ensureSize n => OutputBuffer.ensureSize n
  | .store i bytes => OutputBuffer.store i bytes
  | .commitWritten n => OutputBuffer.commitWritten n
  | .bulkWrite bytes => OutputBuffer.bulkWrite bytes
  | .syncOutput => syncOutput

/-- How many bytes the stream has taken. -/
def position (s : OutputBuffer ChunkedOutputStream) : Nat :=
  match s.derived.window with
  | .small i => s.derived.done.length +
      (s.derived.currentChunk.length - s.derived.decomissionThreshold.toNat) + i + s.behind.length
  | _ => s.derived.done.length + s.derived.currentChunk.length - s.free.length

/-- The bytes that a call writes. Of a bulk write that fails these are the ones that were taken. -/
def writes (s : OutputBuffer ChunkedOutputStream) : OutputCall → List UInt8
  | .commitWritten n => s.free.take n
  | .bulkWrite bytes =>
    match perform (.bulkWrite bytes) s with
    | (.ok (), _) => bytes
    | (.error _, t) => bytes.take (position t - position s)
  | _ => []

/-- A stream, and what was written to it. -/
abbrev Logged : Type := OutputBuffer ChunkedOutputStream × List UInt8

def performLogged (call : OutputCall) (p : Logged) : Logged := ((perform call p.1).2, p.2 ++ writes p.1 call)

/-- What a call may ask for. -/
def Permitted : OutputCall → Logged → Prop
  | .ensureSize n, _ => n ≤ minimumOutputBufferSize
  | .store i bytes, p => i + bytes.length ≤ p.1.free.length
  | .commitWritten n, p => n ≤ p.1.free.length
  | _, _ => True

instance : ∀ call p, Decidable (Permitted call p)
  | .ensureSize n, _ => inferInstanceAs (Decidable (n ≤ minimumOutputBufferSize))
  | .store i bytes, p => inferInstanceAs (Decidable (i + bytes.length ≤ p.1.free.length))
  | .commitWritten n, p => inferInstanceAs (Decidable (n ≤ p.1.free.length))
  | .bulkWrite _, _ => isTrue trivial
  | .syncOutput, _ => isTrue trivial

/-- The call writes nowhere else, and a bulk write fails only where there is no room. -/
structure Keeps (total : Nat) (call : OutputCall) (p : Logged) : Prop where
  within : (perform call p.1).1 ≠ .error .outOfBounds
  room : ∀ bytes e, call = .bulkWrite bytes → (perform call p.1).1 = .error e →
    total < p.2.length + bytes.length

def Succeeds (call : OutputCall) (p : Logged) : Prop := (perform call p.1).1 = .ok ()

/-- Bytes that belong to the next chunk go only to one that has room for them, and a bulk write that goes past
the buffer does not end where the last chunk does. -/
def Spared (total : Nat) : OutputCall → Logged → Prop
  | .ensureSize n, p => p.1.free.length < n → 0 ≤ p.1.derived.decomissionThreshold →
      p.1.derived.decomissionThreshold ≤ spilledSize p.1 →
      NextTakes (spilledSize p.1 - p.1.derived.decomissionThreshold.toNat) p.1
  | .bulkWrite bytes, p => p.1.free.length < bytes.length →
      (0 ≤ p.1.derived.decomissionThreshold →
        NextTakes (smallBufferSize - p.1.derived.decomissionThreshold.toNat) p.1) ∧
      p.2.length + bytes.length ≠ total
  | .syncOutput, p => 0 ≤ p.1.derived.decomissionThreshold → p.1.derived.decomissionThreshold < spilledSize p.1 →
      NextTakes (spilledSize p.1 - p.1.derived.decomissionThreshold.toNat) p.1
  | _, _ => True

instance (total : Nat) : ∀ call p, Decidable (Spared total call p)
  | .ensureSize n, p => inferInstanceAs (Decidable (p.1.free.length < n → 0 ≤ p.1.derived.decomissionThreshold →
      p.1.derived.decomissionThreshold ≤ spilledSize p.1 →
      NextTakes (spilledSize p.1 - p.1.derived.decomissionThreshold.toNat) p.1))
  | .store _ _, _ => isTrue trivial
  | .commitWritten _, _ => isTrue trivial
  | .bulkWrite bytes, p => inferInstanceAs (Decidable (p.1.free.length < bytes.length →
      (0 ≤ p.1.derived.decomissionThreshold →
        NextTakes (smallBufferSize - p.1.derived.decomissionThreshold.toNat) p.1) ∧
      p.2.length + bytes.length ≠ total))
  | .syncOutput, p => inferInstanceAs (Decidable (0 ≤ p.1.derived.decomissionThreshold →
      p.1.derived.decomissionThreshold < spilledSize p.1 →
      NextTakes (spilledSize p.1 - p.1.derived.decomissionThreshold.toNat) p.1))

theorem Logs.position (h : Logs total s out) : position s = out.length := by
  obtain ⟨pending, h | ⟨threshold, i, h⟩⟩ := h
  · rcases h.spans with ⟨i, hwindow, hlen, rfl⟩ | ⟨hwindow, hfree, rfl⟩
    · rw [List.length_append] at hlen
      simp only [ChunkedOutputStream.position, hwindow, List.length_append, List.length_take]
      omega
    · simp only [ChunkedOutputStream.position, hwindow, hfree, List.length_append, List.length_nil,
        Nat.sub_zero]
  · have hspans := h.spans
    have hsmall := h.small
    rw [List.length_append] at hspans
    rw [h.out_eq]
    simp only [ChunkedOutputStream.position, h.window, h.marker, Int.toNat_natCast, List.length_append,
      List.length_take_of_le (Nat.sub_le _ _)]
    rw [List.length_take_of_le (by omega)]

/-! ### Each of the calls -/

/-- The call keeps what is promised, and its log. -/
def Keeping (total : Nat) (call : OutputCall) (p : Logged) : Prop :=
  Keeps total call p ∧ Logs total (performLogged call p).1 (performLogged call p).2

theorem keeping_of_sound {call : OutputCall} (h : (perform call).Meets s (Sound total out))
    (hwrites : writes s call = [])
    (hcall : ∀ bytes, call ≠ .bulkWrite bytes) : Keeping total call (s, out) := by
  refine ⟨⟨h.1, fun bytes _ hbulk => absurd hbulk (hcall bytes)⟩, ?_⟩
  rw [performLogged, hwrites, List.append_nil]
  exact h.2

theorem keeps_ok {call : OutputCall} {t : OutputBuffer ChunkedOutputStream}
    (h : perform call s = (.ok (), t)) :
    Keeps total call (s, out) := by
  constructor
  · rw [h]
    intro he
    cases he
  · intro _ e _ he
    rw [h] at he
    cases he

theorem not_keeps_of_overrun (call : OutputCall)
    (h : (perform call).Meets s fun r _ => r = .error .outOfBounds) :
    ¬ Keeps total call (s, out) := fun hkeeps => hkeeps.within h

theorem Spilling.spared_ensureSize {pending : List (List UInt8)} {threshold i : Nat}
    (h : Spilling s out pending total threshold i) : Spared total (.ensureSize n) (s, out) ↔
      (s.free.length < n → threshold ≤ i + s.behind.length → NextTakes (i + s.behind.length - threshold) s) := by
  rw [Spared, h.marker, h.toOnSmall.spilledSize_eq, Int.toNat_natCast, Int.ofNat_le]
  exact forall_congr' fun _ => ⟨fun hspared => hspared (Int.natCast_nonneg _), fun hnext _ => hnext⟩

theorem Spilling.spared_syncOutput {pending : List (List UInt8)} {threshold i : Nat}
    (h : Spilling s out pending total threshold i) : Spared total .syncOutput (s, out) ↔
      (threshold < i + s.behind.length → NextTakes (i + s.behind.length - threshold) s) := by
  rw [Spared, h.marker, h.toOnSmall.spilledSize_eq, Int.toNat_natCast, Int.ofNat_lt]
  exact ⟨fun hspared => hspared (Int.natCast_nonneg _), fun hnext _ => hnext⟩

theorem ensureSize_keeps (h : Logs total s out) (hn : n ≤ minimumOutputBufferSize) :
    (Spared total (.ensureSize n) (s, out) → Keeping total (.ensureSize n) (s, out)) ∧
      (Keeps total (.ensureSize n) (s, out) → Spared total (.ensureSize n) (s, out)) := by
  obtain ⟨pending, h | ⟨threshold, i, h⟩⟩ := h
  · have hsound : (perform (.ensureSize n)).Meets s (Sound total out) :=
      .of_eq (ensureSize_rounds n s) (h.ensure hn)
    refine ⟨fun _ => keeping_of_sound hsound rfl nofun, fun _ _ hmarker => ?_⟩
    rw [h.marker] at hmarker
    exact absurd hmarker (by decide)
  · rw [h.spared_ensureSize]
    constructor
    · intro hnext
      exact keeping_of_sound (.of_eq (ensureSize_rounds n s) (h.ensure hn hnext)) rfl nofun
    · intro hkeeps hgrow hcross
      by_contra hnext
      exact not_keeps_of_overrun (.ensureSize n)
        (.of_eq (ensureSize_rounds n s) (h.ensure_overruns hgrow hcross hnext)) hkeeps

theorem syncOutput_keeps (h : Logs total s out) :
    (Spared total .syncOutput (s, out) →
        Keeping total .syncOutput (s, out) ∧ syncOutput.Meets s (Synced total out)) ∧
      (Keeps total .syncOutput (s, out) → Spared total .syncOutput (s, out)) := by
  obtain ⟨pending, h | ⟨threshold, i, h⟩⟩ := h
  · refine ⟨fun _ => ⟨keeping_of_sound (h.sync.mono fun r t ht => ht.1) rfl nofun, h.sync⟩, fun _ hmarker => ?_⟩
    rw [h.marker] at hmarker
    exact absurd hmarker (by decide)
  · rw [h.spared_syncOutput]
    constructor
    · intro hnext
      have hsync := h.sync hnext
      exact ⟨keeping_of_sound (hsync.mono fun r t ht => ht.1) rfl nofun, hsync⟩
    · intro hkeeps hcross
      by_contra hnext
      exact not_keeps_of_overrun .syncOutput (h.sync_overruns hcross hnext) hkeeps

/-- Bytes that were copied to the buffer first are among those taken. -/
theorem Fills.shift {k : Nat} {r : Except Fault Unit} {t : OutputBuffer ChunkedOutputStream}
    (h : Fills total (out ++ bytes.take k) (bytes.drop k) r t) : Fills total out bytes r t := by
  have hsplit : out ++ bytes.take k ++ bytes.drop k = out ++ bytes := by
    rw [List.append_assoc, List.take_append_drop]
  have hlen : (out ++ bytes.take k).length + (bytes.drop k).length = out.length + bytes.length := by
    rw [← List.length_append, hsplit, List.length_append]
  rw [Fills, hlen, hsplit] at h
  rcases h with hok | ⟨hfull, hr, taken, hlogs⟩
  · exact .inl hok
  · refine .inr ⟨hfull, hr, k + taken, ?_⟩
    rwa [List.take_add, ← List.append_assoc]

/-- A bulk write that does not fit in the buffer fills it. -/
theorem bulkWrite_wrote (hgrow : s.free.length < bytes.length) :
    ∃ t, OutputBuffer.bulkWrite bytes s = doBulkWrite (bytes.drop s.free.length) t ∧ t.free = [] ∧
      Wrote (bytes.take s.free.length) s t := by
  obtain ⟨t, ht, hbehind, hfree, hderived⟩ := OutputBuffer.bulkWrite_full hgrow
  refine ⟨t, ht, hfree, hbehind, ?_, hderived⟩
  rw [hfree, List.length_take_of_le hgrow.le, List.length_nil, Nat.add_zero]

/-- One that fits is written to it. -/
theorem bulkWrite_fits (hlen : bytes.length ≤ s.free.length) :
    ∃ t, OutputBuffer.bulkWrite bytes s = (.ok (), t) ∧ Wrote bytes s t := by
  obtain ⟨t, ht, hbehind, hfree, hderived⟩ := OutputBuffer.bulkWrite_enough hlen
  refine ⟨t, ht, hbehind, ?_, hderived⟩
  rw [hfree, List.length_drop]
  omega

theorem bulkWrite_fills (h : Logs total s out) (hgrow : s.free.length < bytes.length)
    (hnext : 0 ≤ s.derived.decomissionThreshold →
      NextTakes (smallBufferSize - s.derived.decomissionThreshold.toNat) s) :
    (OutputBuffer.bulkWrite bytes).Meets s (Fills total out bytes) := by
  obtain ⟨t, ht, hfree, hwrote⟩ := bulkWrite_wrote hgrow
  obtain ⟨pending, hlogs | ⟨threshold, i, hlogs⟩⟩ := h.wrote hwrote
  · exact .of_eq ht ((hlogs.bulk hfree).mono fun _ _ hfills => hfills.shift)
  · rw [NextTakes, nextRoom, ← hwrote.derived, hlogs.marker] at hnext
    exact .of_eq ht ((hlogs.bulk hfree (hnext (by omega))).mono fun _ _ hfills => hfills.shift)

theorem bulkWrite_overruns (h : Logs total s out) (hgrow : s.free.length < bytes.length)
    (hmarker : 0 ≤ s.derived.decomissionThreshold)
    (hnext : ¬ NextTakes (smallBufferSize - s.derived.decomissionThreshold.toNat) s) :
    (OutputBuffer.bulkWrite bytes).Meets s fun r _ => r = .error .outOfBounds := by
  obtain ⟨t, ht, hfree, hwrote⟩ := bulkWrite_wrote hgrow
  rw [← hwrote.derived] at hmarker
  obtain ⟨pending, hlogs | ⟨threshold, i, hlogs⟩⟩ := h.wrote hwrote
  · rw [hlogs.marker] at hmarker
    exact absurd hmarker (by decide)
  · rw [NextTakes, nextRoom, ← hwrote.derived, hlogs.marker] at hnext
    exact .of_eq ht (hlogs.bulk_overruns hfree hnext)

theorem keeping_of_fills (h : Logs total s out)
    (hfills : (OutputBuffer.bulkWrite bytes).Meets s (Fills total out bytes))
    (hne : out.length + bytes.length ≠ total) : Keeping total (.bulkWrite bytes) (s, out) := by
  obtain ⟨r, t, ht⟩ : ∃ r t, perform (.bulkWrite bytes) s = (r, t) := ⟨_, _, rfl⟩
  have hbulk : OutputBuffer.bulkWrite bytes s = (r, t) := ht
  rw [Action.Meets, hbulk] at hfills
  rcases hfills with ⟨hroom, rfl, hlogs⟩ | ⟨hfull, rfl, taken, hlogs⟩
  · refine ⟨keeps_ok ht, ?_⟩
    rw [performLogged, writes, ht]
    exact hlogs
  · refine ⟨⟨?_, fun bytes' _ hcall _ => ?_⟩, ?_⟩
    · rw [ht]
      intro he
      cases he
    · cases hcall
      exact Nat.lt_of_le_of_ne hfull hne.symm
    · have hcount : position t - position s = (bytes.take taken).length := by
        rw [hlogs.position, h.position, List.length_append]
        omega
      rw [performLogged, writes, ht]
      dsimp only
      rwa [hcount, List.length_take, ← List.take_eq_take_min]

theorem bulkWrite_keeps (bytes : List UInt8) (h : Logs total s out) :
    (Spared total (.bulkWrite bytes) (s, out) → Keeping total (.bulkWrite bytes) (s, out)) ∧
      (Keeps total (.bulkWrite bytes) (s, out) → Spared total (.bulkWrite bytes) (s, out)) := by
  by_cases hlen : bytes.length ≤ s.free.length
  · obtain ⟨t, ht, hwrote⟩ := bulkWrite_fits hlen
    have hperform : perform (.bulkWrite bytes) s = (.ok (), t) := ht
    refine ⟨fun _ => ⟨keeps_ok hperform, ?_⟩, fun _ hgrow => absurd hlen (Nat.not_le.mpr hgrow)⟩
    rw [performLogged, writes, hperform]
    exact h.wrote hwrote
  · have hgrow := Nat.lt_of_not_le hlen
    constructor
    · intro hspared
      obtain ⟨hnext, hne⟩ := hspared hgrow
      exact keeping_of_fills h (bulkWrite_fills h hgrow hnext) hne
    · intro hkeeps _
      have hnext : 0 ≤ s.derived.decomissionThreshold →
          NextTakes (smallBufferSize - s.derived.decomissionThreshold.toNat) s := by
        intro hmarker
        by_contra hoverrun
        exact not_keeps_of_overrun (.bulkWrite bytes) (bulkWrite_overruns h hgrow hmarker hoverrun) hkeeps
      refine ⟨hnext, fun hexact => ?_⟩
      -- all the room is taken, and the call fails
      rcases bulkWrite_fills h hgrow hnext with ⟨hroom, -, -⟩ | ⟨-, hr, -⟩
      · exact absurd hexact (Nat.ne_of_lt hroom)
      · have hmore := hkeeps.room bytes _ rfl hr
        exact absurd hexact (Nat.ne_of_gt hmore)

theorem store_keeping {i : Nat} (h : Logs total s out) (hroom : i + bytes.length ≤ s.free.length) :
    Keeping total (.store i bytes) (s, out) := by
  refine keeping_of_sound (.of_eq (OutputBuffer.store_apply hroom) ?_) rfl nofun
  have hlogs := h.wrote (wrote_store hroom)
  rw [List.append_nil] at hlogs
  exact sound_ok hlogs

theorem commitWritten_keeping (h : Logs total s out) (hroom : n ≤ s.free.length) :
    Keeping total (.commitWritten n) (s, out) := by
  have hperform : perform (.commitWritten n) s = (.ok (), s.commit n) :=
    OutputBuffer.commitWritten_apply hroom
  refine ⟨keeps_ok hperform, ?_⟩
  rw [performLogged, writes, hperform]
  exact h.wrote (wrote_commit hroom)

/-- A call keeps what is promised exactly if it is spared. -/
theorem keeps_iff_spared {call : OutputCall} {p : Logged} (h : Logs total p.1 p.2)
    (hpermitted : Permitted call p) :
    (Keeps total call p ↔ Spared total call p) ∧
      (Keeps total call p → Logs total (performLogged call p).1 (performLogged call p).2) := by
  cases call with
  | ensureSize n =>
    have hkeeps := ensureSize_keeps h hpermitted
    exact ⟨⟨hkeeps.2, fun hspared => (hkeeps.1 hspared).1⟩, fun hk => (hkeeps.1 (hkeeps.2 hk)).2⟩
  | store i bytes =>
    have hkeeping := store_keeping h hpermitted
    exact ⟨⟨fun _ => trivial, fun _ => hkeeping.1⟩, fun _ => hkeeping.2⟩
  | commitWritten n =>
    have hkeeping := commitWritten_keeping h hpermitted
    exact ⟨⟨fun _ => trivial, fun _ => hkeeping.1⟩, fun _ => hkeeping.2⟩
  | bulkWrite bytes =>
    have hkeeps := bulkWrite_keeps bytes h
    exact ⟨⟨hkeeps.2, fun hspared => (hkeeps.1 hspared).1⟩, fun hk => (hkeeps.1 (hkeeps.2 hk)).2⟩
  | syncOutput =>
    have hkeeps := syncOutput_keeps h
    exact ⟨⟨hkeeps.2, fun hspared => (hkeeps.1 hspared).1.1⟩, fun hk => (hkeeps.1 (hkeeps.2 hk)).1.2⟩

/-! ### Runs -/

/-- A stream into chunks that was just opened. -/
def openedOn (chunks : List (List UInt8)) : Logged :=
  (chunkedOutput [] chunks.flatten.length (chunks.map .ok), [])

theorem logs_openedOn {chunks : List (List UInt8)} (hne : ∀ c ∈ chunks, c ≠ [])
    (hfits : chunks.flatten.length < wordLimit) :
    Logs chunks.flatten.length (openedOn chunks).1 (openedOn chunks).2 := by
  have hsized : Sized (openedOn chunks).1 chunks chunks.flatten.length :=
    ⟨hne, rfl, rfl, hfits, rfl, List.length_replicate, Nat.zero_add _⟩
  exact Direct.logs ⟨hsized, rfl, .inl ⟨0, rfl, rfl, rfl⟩⟩

/-- What a run with a final synchronization promises: its calls keep what they promise, and if all of them succeed
the chunks begin with the bytes that were written. -/
def Appends (chunks : List (List UInt8)) (calls : List OutputCall) : Prop :=
  EveryStep performLogged (Keeps chunks.flatten.length) (calls ++ [.syncOutput]) (openedOn chunks) ∧
    (EveryStep performLogged Succeeds (calls ++ [.syncOutput]) (openedOn chunks) →
      (runSteps performLogged (calls ++ [.syncOutput]) (openedOn chunks)).2 <+:
        contents (runSteps performLogged (calls ++ [.syncOutput]) (openedOn chunks)).1)

/-- A stream into chunks is an append log in a run exactly if each call of it is spared. -/
theorem chunked_appends {chunks : List (List UInt8)} {calls : List OutputCall} (hne : ∀ c ∈ chunks, c ≠ [])
    (hfits : chunks.flatten.length < wordLimit)
    (hpermitted : EveryStep performLogged Permitted (calls ++ [.syncOutput]) (openedOn chunks)) :
    Appends chunks calls ↔
      EveryStep performLogged (Spared chunks.flatten.length) (calls ++ [.syncOutput]) (openedOn chunks) := by
  have hlogs := logs_openedOn hne hfits
  have hiff := hpermitted.iff_of_invariant (fun p => Logs chunks.flatten.length p.1 p.2) hlogs
    (fun call p hp hcall => (keeps_iff_spared hp hcall).1)
    (fun call p hp hcall => (keeps_iff_spared hp hcall).2)
  refine ⟨fun happends => hiff.mp happends.1, fun hspared => ⟨hiff.mpr hspared, fun hsucceeds => ?_⟩⟩
  have hkeeps := hiff.mpr hspared
  -- the final synchronization
  rw [everyStep_append] at hpermitted hkeeps hsucceeds hspared
  have hbefore : Logs chunks.flatten.length (runSteps performLogged calls (openedOn chunks)).1
      (runSteps performLogged calls (openedOn chunks)).2 :=
    (hpermitted.1.and hkeeps.1).reaches (fun p => Logs chunks.flatten.length p.1 p.2) hlogs
      fun call p hp hcall => (keeps_iff_spared hp hcall.1).2 hcall.2
  have hsync := ((syncOutput_keeps hbefore).1 hspared.2.1).2
  have hsuccess : (syncOutput (runSteps performLogged calls (openedOn chunks)).1).1 = .ok () := hsucceeds.2.1
  rw [runSteps_append]
  show (_ ++ []) <+: _
  rw [List.append_nil]
  exact hsync.2 hsuccess

/-- A chunk is filled, and a bulk write goes on in the next one. -/
theorem chunked_appends_across :
    Appends [[0], [0, 0]] [.ensureSize 1, .store 0 [1], .commitWritten 1, .bulkWrite [2]] :=
  (chunked_appends (by decide) (by decide) (by decide)).mpr (by decide)

/-- Two bytes that belong to the next chunk, which has room for one, are written behind it. -/
theorem small_chunk_is_overrun : ¬ ∀ chunks calls, (∀ c ∈ chunks, c ≠ []) → chunks.flatten.length < wordLimit →
    EveryStep performLogged Permitted (calls ++ [.syncOutput]) (openedOn chunks) → Appends chunks calls := by
  intro h
  have happends := h [[0], [0], [0, 0]] [.ensureSize 1, .ensureSize 2, .store 0 [1, 2, 3], .commitWritten 3]
    (by decide) (by decide) (by decide)
  obtain ⟨-, -, -, -, hsync, -⟩ := happends.1
  exact hsync.within (by decide)

end ChunkedOutputStream
end DeepPack
