import DeepPack.Codecs.Buffering
import DeepPack.Codecs.RoundTrip

/-! The decoders of wrappers: enumerations, durations, paths and uuids.

A wrapper is decoded as the value it is made of, on the side, and made of that. A uuid
is the one definite binary string of its size. -/
namespace DeepPack
open Library

variable {α β ε : Type}

/-- Decodes a value on the side, and assigns what `f` makes of it. -/
def Decoder.via (d : Decoder α) (f : α → β) : Decoder β where
  init := f d.init
  decode σ := do
    let v ← Action.onFst (d.asValue σ)
    assign (f v)

/-- `static_cast<T>` of the underlying integer. -/
def enumDecoder (t : IntType) (cast : BitVec t.width → ε) : Decoder ε := (integerDecoder t).via cast

/-- The `duration` of a count. -/
def durationDecoder {δ : Type} (rep : IntType) (duration : BitVec rep.width → δ) : Decoder δ :=
  (integerDecoder rep).via duration

/-- What `path::assign` makes of the generic string. -/
def pathDecoder {π : Type} (assign : List UInt8 → π) : Decoder π := stringDecoder.via assign

/-- The uuid of so many bytes, once they are all there. -/
def uuidDecoder {υ : Type} (uuid : List UInt8 → υ) : Decoder υ where
  init := uuid (List.replicate uuidStateSize 0)
  decode _ := do
    Action.onFst (expectItemHead .binary uuidStateSize)
    let raw ← Action.onFst (InputBuffer.bulkRead uuidStateSize)
    assign (uuid raw)

/-! ### Round trips -/

theorem Decoder.takes_via {d : Decoder α} {f : α → β} {p : List UInt8} {v : α} (w : β)
    (h : InputTakes (d.asValue MemoryInputStream) p v) :
    ParseTakes ((d.via f).decode MemoryInputStream) p () w (f v) :=
  (h.onFst w).after (takes_assign w (f v))

theorem Restores.via {c : Encoder α} {d : Decoder α} (h : Restores c d) {f : β → α} {g : α → β}
    (hfg : Function.LeftInverse g f) : Restores (c.via f) (d.via g) := by
  intro v hv w
  have htakes := Decoder.takes_via (f := g) w (h.asValue (v := f v) hv)
  rwa [hfg v] at htakes

theorem restores_uuid {υ : Type} {canonical : υ → ByteArrayOf uuidStateSize}
    {uuid : List UInt8 → υ} (h : ∀ u, uuid (canonical u).val = u) : Restores (uuidEncoder canonical) (uuidDecoder uuid) := by
  intro v _ w
  have hlen := (canonical v).property
  have hwords : (canonical v).val.length < wordLimit := by
    rw [hlen]
    decide
  have hbytes : (uuidEncoder canonical).bytes v =
      Detail.varUintHead .binary uuidStateSize ++ (canonical v).val := by
    have hputs := (puts_emitBinary hwords).bytes_eq
    rw [hlen] at hputs
    exact hputs
  rw [hbytes]
  have hexpect : InputTakes (expectItemHead .binary uuidStateSize) (Detail.varUintHead .binary uuidStateSize) () := by
    refine (takes_varUintHead (m := 2) (by decide) (by decide)).after ?_
    exact .ite_neg (not_not.mpr rfl) (.ite_neg (by simp) (.ite_neg (not_not.mpr rfl) (Action.takes_pure ())))
  have hread : InputTakes (InputBuffer.bulkRead uuidStateSize) (canonical v).val (canonical v).val := by
    have hbulk := takes_bulkRead (canonical v).val
    rwa [hlen] at hbulk
  refine (hexpect.onFst w).bind ((hread.onFst w).after ?_)
  rw [h v]
  exact takes_assign w v

/-! ### Buffering -/

theorem Decoder.Independent.via {d : Decoder α} (h : d.Independent) (f : α → β) : (d.via f).Independent := fun _ _ =>
  h.asValue.onFst.bind fun _ => agree_assign _

theorem independent_uuid {υ : Type} (uuid : List UInt8 → υ) : (uuidDecoder uuid).Independent := fun _ _ =>
  (agree_expectItemHead _ _).onFst.bind fun _ => (agree_bulkRead _).onFst.bind fun _ => agree_assign _

end DeepPack
