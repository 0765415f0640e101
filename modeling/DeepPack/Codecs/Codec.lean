import DeepPack.Items.EmitRanges
import DeepPack.Items.ParseRanges

/-! What a `codec` specialisation is made of.

An encoder is the pair `size_of` and `encode`, a decoder is `decode` with the
object it starts from where the caller has none. `Exact` is what every encoder of
the library turns out to be: one item on every stream, of the size computed for it. -/
namespace DeepPack
open Library

structure Encoder (α : Type) where
  /-- The values of the C++ type; the model's carrier may have more. -/
  IsValue : α → Prop
  sizeOf : α → UInt64
  encode : α → Emitter

structure Decoder (α : Type) where
  init : α
  decode : ∀ (σ : Type) [InputStream σ], Parse σ α Unit

/-- `decode(as_value<T>, ctx)`. -/
def Decoder.asValue {α : Type} (d : Decoder α) (σ : Type) [InputStream σ] : Input σ α :=
  Action.fresh d.init (d.decode σ)

namespace Encoder
variable {α β : Type}

def Value (c : Encoder α) : Type := {v : α // c.IsValue v}

/-- The encoding of a value: what it leaves on a stream that never ends. -/
def bytes (c : Encoder α) (v : α) : List UInt8 := (c.encode v).bytes

/-- Encodes what `f` makes of a value. -/
def via (f : β → α) (c : Encoder α) : Encoder β where
  IsValue v := c.IsValue (f v)
  sizeOf v := c.sizeOf (f v)
  encode v := c.encode (f v)

def Exact (c : Encoder α) : Prop :=
  ∀ v, c.IsValue v → Puts (c.encode v) (c.sizeOf v) (c.bytes v) ∧ WellFormed .item (c.bytes v)

theorem exact_of {c : Encoder α} {bytes : α → List UInt8}
    (h : ∀ v, c.IsValue v → Puts (c.encode v) (c.sizeOf v) (bytes v) ∧ WellFormed .item (bytes v)) :
    c.Exact := by
  intro v hv
  obtain ⟨hputs, hwf⟩ := h v hv
  refine ⟨hputs.self, ?_⟩
  rwa [Encoder.bytes, hputs.bytes_eq]

theorem Exact.via {c : Encoder α} (h : c.Exact) (f : β → α) : (c.via f).Exact := fun v hv => h (f v) hv

end Encoder

/-! ### Items that are a head and little else -/

theorem wellFormed_int {m v : Nat} (hm : m = 0 ∨ m = 1) (hv : v < wordLimit) :
    WellFormed .item (Detail.varUintHead (.ofMajor m) v) := by
  obtain ⟨info, hhead⟩ := Detail.head_varUintHead (m := m) (by omega) hv
  exact .int hm hhead

theorem wellFormed_string {m : Nat} {content : List UInt8} (hm : m = 2 ∨ m = 3)
    (hlen : content.length < wordLimit) :
    WellFormed .item (Detail.varUintHead (.ofMajor m) content.length ++ content) := by
  obtain ⟨info, hhead⟩ := Detail.head_varUintHead (m := m) (by omega) hlen
  exact .string hm hhead rfl

theorem wellFormed_inlineSimple {v : Nat} (hv : v ≤ 23) : WellFormed .item [initialByte 7 v] :=
  .simple (.inline hv) (by omega)

theorem wellFormed_float {p : Nat} {payload : List UInt8} (hp : 1 ≤ p) (hp3 : p ≤ 3)
    (hlen : payload.length = 2 ^ p) : WellFormed .item (initialByte 7 (24 + p) :: payload) :=
  .simple (.payload hp3 hlen) (by omega)

theorem wellFormed_array {n : Nat} {body : List UInt8} (hn : n < wordLimit)
    (h : WellFormed (.items n) body) : WellFormed .item (Detail.varUintHead .array n ++ body) := by
  obtain ⟨info, hhead⟩ := Detail.head_varUintHead (m := 4) (by decide) hn
  exact .array hhead h

theorem wellFormed_map {n : Nat} {body : List UInt8} (hn : n < wordLimit)
    (h : WellFormed (.items (2 * n)) body) : WellFormed .item (Detail.varUintHead .map n ++ body) := by
  obtain ⟨info, hhead⟩ := Detail.head_varUintHead (m := 5) (by decide) hn
  exact .map hhead h

end DeepPack
