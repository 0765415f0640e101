import DeepPack.Codecs.Encodable
import DeepPack.Items.EmitPreserving

/-! What encoding keeps, whatever comes of it.

The encoders change a stream through the emitters alone, and keep what these keep. An
encoder that fails half way has put out a part of its value; what was there before is
there. -/
namespace DeepPack
open Library

/-- An emitter that keeps every invariant of a stream's calls. -/
def Emitter.Preserving (x : Emitter) : Prop :=
  ∀ {σ : Type} [OutputStream σ] (J : OutputInvariant σ), EmitPreserves J (x σ)

def Encoder.Preserving {α : Type} (c : Encoder α) : Prop := ∀ v, (c.encode v).Preserving

variable {α β κ ν ι : Type} {c : Encoder α} {k : Encoder κ}

theorem Encoder.Preserving.via (h : c.Preserving) (f : β → α) : (c.via f).Preserving := fun v => h (f v)

theorem preserving_integerEncoder (t : IntType) : (integerEncoder t).Preserving := fun _ _ _ _ =>
  Detail.preserves_storeVarUint _ _ _

theorem preserving_emitBinary (data : List UInt8) : Emitter.Preserving fun _ _ => emitBinary data := fun _ =>
  preserves_emitBinary data

theorem preserving_emitU8string (data : List UInt8) : Emitter.Preserving fun _ _ => emitU8string data := fun _ =>
  preserves_emitU8string data

/-! ### Containers -/

theorem preserving_rangeEncoder (digits : Nat) (h : c.Preserving) : (rangeEncoder digits c).Preserving :=
  fun _ _ _ J => Detail.preserves_emitArrayLike (fun v => h v J) _ _ _

theorem preserving_indefiniteRangeEncoder (h : c.Preserving) : (indefiniteRangeEncoder c).Preserving :=
  fun _ _ _ J => Detail.preserves_emitIndefiniteArrayLike (fun v => h v J) _ _

theorem preserving_encodePair {c : Encoder ν} (hk : k.Preserving) (hc : c.Preserving) (pair : κ × ν) :
    (Detail.encodePair k c pair).Preserving := fun J => (hk pair.1 J).bind fun _ => hc pair.2 J

theorem preserving_mapEncoder {c : Encoder ν} (digits : Nat) (hk : k.Preserving) (hc : c.Preserving) :
    (mapEncoder digits k c).Preserving := fun _ _ _ J =>
  Detail.preserves_emitArrayLike (fun v => preserving_encodePair hk hc v J) _ _ _

theorem preserving_indefiniteMapEncoder {c : Encoder ν} (hk : k.Preserving) (hc : c.Preserving) :
    (indefiniteMapEncoder k c).Preserving := fun _ _ _ J =>
  Detail.preserves_emitIndefiniteArrayLike (fun v => preserving_encodePair hk hc v J) _ _

/-! ### Tuples and objects -/

section Members
variable {n : Nat} {δ : Fin n → Type} {f : ∀ i, Encoder (δ i)}

theorem preserving_mpForDots {x : Fin n → Emitter} (h : ∀ i, (x i).Preserving) :
    Emitter.Preserving fun σ _ => mpForDots fun i => x i σ := fun J => Action.Preserves.forList (fun i => h i J) _

theorem preserving_tupleEncoder (h : ∀ i, (f i).Preserving) : (tupleEncoder f).Preserving := fun v _ _ J =>
  (Detail.preserves_storeVarUint _ _ _).bind fun _ => preserving_mpForDots (fun i => h i (v i)) J

theorem preserving_packableTupleEncoder (version : BitVec 32) (h : ∀ i, (f i).Preserving) :
    (packableTupleEncoder version f).Preserving := fun v _ _ J =>
  .ite ((Detail.preserves_storeVarUint _ _ _).bind fun _ => preserving_mpForDots (fun i => h i (v i)) J)
    ((Detail.preserves_storeVarUint _ _ _).bind fun _ => (Detail.preserves_storeVarUint _ _ _).bind fun _ =>
      preserving_mpForDots (fun i => h i (v i)) J)

theorem preserving_objectEncoder (D : ObjectDef ι n) {key : Encoder ι} (hkey : key.Preserving)
    (h : ∀ i, (f i).Preserving) : (objectEncoder D key f).Preserving := fun v _ _ J =>
  have hmembers := preserving_mpForDots (x := fun i σ _ => key.encode (D.ids i) σ >>= fun _ => (f i).encode (v i) σ)
    (fun i _ _ J => (hkey _ J).bind fun _ => h i _ J) J
  .ite ((Detail.preserves_storeVarUint _ _ _).bind fun _ => hmembers)
    ((Detail.preserves_storeVarUint _ _ _).bind fun _ => (Detail.preserves_storeInlineValue _ _).bind fun _ =>
      (Detail.preserves_storeVarUint _ _ _).bind fun _ => hmembers)

end Members

theorem Encodable.preserving (h : Encodable c) : c.Preserving := by
  induction h with
  | null => exact fun _ _ _ _ => Detail.preserves_storeInlineValue _ _
  | bool => exact fun _ _ _ _ => Detail.preserves_storeInlineValue _ _
  | integer _ => exact preserving_integerEncoder _
  | float => exact fun _ _ _ _ => Detail.preserves_emitFloat _ _ _
  | double => exact fun _ _ _ _ => Detail.preserves_emitFloat _ _ _
  | string => exact preserving_emitU8string
  | fixedU8string _ => exact fun _ => preserving_emitU8string _
  | blob => exact preserving_emitBinary
  | byteArray _ => exact fun _ => preserving_emitBinary _
  | enum underlying _ => exact (preserving_integerEncoder _).via underlying
  | duration count _ => exact (preserving_integerEncoder _).via count
  | uuid _ => exact fun _ => preserving_emitBinary _
  | path genericU8string => exact Encoder.Preserving.via (c := stringEncoder) preserving_emitU8string genericU8string
  | stringRef data => exact Encoder.Preserving.via (c := stringEncoder) preserving_emitU8string data
  | range _ _ ih => exact preserving_rangeEncoder _ ih
  | indefiniteRange _ ih => exact preserving_indefiniteRangeEncoder ih
  | map _ _ _ ihk ihc => exact preserving_mapEncoder _ ihk ihc
  | indefiniteMap _ _ ihk ihc => exact preserving_indefiniteMapEncoder ihk ihc
  | set _ _ ih => exact preserving_rangeEncoder 64 ih
  | orderedMap _ _ _ ihk ihc => exact preserving_mapEncoder 64 ihk ihc
  | array _ _ ih => exact (preserving_rangeEncoder 64 ih).via List.ofFn
  | tuple _ _ ih => exact preserving_tupleEncoder ih
  | packableTuple version _ _ ih => exact preserving_packableTupleEncoder version ih
  | object _ _ _ _ ihkey ih => exact preserving_objectEncoder _ ihkey ih

end DeepPack
