import DeepPack.Codecs.Encodable
import DeepPack.Items.EmitCarrying

/-! Encoding to streams that may fail.

The encoders are carried over along maps of streams, as the emitters are. An encoder that
succeeds on a stream that may fail at any call has therefore put out what it puts out
on the stream's rescued form, and that is its encoding. -/
namespace DeepPack
open Library

/-- An emitter that is carried over along every map of streams. -/
def Emitter.Carried (x : Emitter) : Prop :=
  ∀ {σ τ : Type} [OutputStream σ] [OutputStream τ] (M : OutputMap σ τ), EmitCarries M (x σ) (x τ)

def Encoder.Carried {α : Type} (c : Encoder α) : Prop := ∀ v, (c.encode v).Carried

variable {α β κ ν ι : Type} {c : Encoder α} {k : Encoder κ}

theorem Encoder.Carried.via (h : c.Carried) (f : β → α) : (c.via f).Carried := fun v => h (f v)

theorem carried_integerEncoder (t : IntType) : (integerEncoder t).Carried := fun _ _ _ _ _ _ =>
  Detail.carries_storeVarUint _ _ _

theorem carried_emitBinary (data : List UInt8) : Emitter.Carried fun _ _ => emitBinary data := fun _ =>
  carries_emitBinary data

theorem carried_emitU8string (data : List UInt8) : Emitter.Carried fun _ _ => emitU8string data := fun _ =>
  carries_emitU8string data

theorem carried_stringEncoder : stringEncoder.Carried := carried_emitU8string

/-! ### Containers -/

theorem carried_rangeEncoder (digits : Nat) (h : c.Carried) : (rangeEncoder digits c).Carried := fun _ _ _ _ _ M =>
  Detail.carries_emitArrayLike (fun v => h v M) _ _ _

theorem carried_indefiniteRangeEncoder (h : c.Carried) : (indefiniteRangeEncoder c).Carried := fun _ _ _ _ _ M =>
  Detail.carries_emitIndefiniteArrayLike (fun v => h v M) _ _

theorem carried_encodePair {c : Encoder ν} (hk : k.Carried) (hc : c.Carried) (pair : κ × ν) :
    (Detail.encodePair k c pair).Carried := fun M => (hk pair.1 M).bind fun _ => hc pair.2 M

theorem carried_mapEncoder {c : Encoder ν} (digits : Nat) (hk : k.Carried) (hc : c.Carried) :
    (mapEncoder digits k c).Carried := fun _ _ _ _ _ M =>
  Detail.carries_emitArrayLike (fun v => carried_encodePair hk hc v M) _ _ _

theorem carried_indefiniteMapEncoder {c : Encoder ν} (hk : k.Carried) (hc : c.Carried) :
    (indefiniteMapEncoder k c).Carried := fun _ _ _ _ _ M =>
  Detail.carries_emitIndefiniteArrayLike (fun v => carried_encodePair hk hc v M) _ _

/-! ### Tuples and objects -/

section Members
variable {n : Nat} {δ : Fin n → Type} {f : ∀ i, Encoder (δ i)}

theorem carried_mpForDots {x : Fin n → Emitter} (h : ∀ i, (x i).Carried) :
    Emitter.Carried fun σ _ => mpForDots fun i => x i σ := fun M => Action.Carries.forList (fun i => h i M) _

theorem carried_tupleEncoder (h : ∀ i, (f i).Carried) : (tupleEncoder f).Carried := fun v _ _ _ _ M =>
  (Detail.carries_storeVarUint _ _ _).bind fun _ => carried_mpForDots (fun i => h i (v i)) M

theorem carried_packableTupleEncoder (version : BitVec 32) (h : ∀ i, (f i).Carried) :
    (packableTupleEncoder version f).Carried := fun v _ _ _ _ M =>
  .ite ((Detail.carries_storeVarUint _ _ _).bind fun _ => carried_mpForDots (fun i => h i (v i)) M)
    ((Detail.carries_storeVarUint _ _ _).bind fun _ => (Detail.carries_storeVarUint _ _ _).bind fun _ =>
      carried_mpForDots (fun i => h i (v i)) M)

theorem carried_objectEncoder (D : ObjectDef ι n) {key : Encoder ι} (hkey : key.Carried) (h : ∀ i, (f i).Carried) :
    (objectEncoder D key f).Carried := fun v _ _ _ _ M =>
  have hmembers := carried_mpForDots (x := fun i σ _ => key.encode (D.ids i) σ >>= fun _ => (f i).encode (v i) σ)
    (fun i _ _ _ _ M => (hkey _ M).bind fun _ => h i _ M) M
  .ite ((Detail.carries_storeVarUint _ _ _).bind fun _ => hmembers)
    ((Detail.carries_storeVarUint _ _ _).bind fun _ => (Detail.carries_storeInlineValue _ _).bind fun _ =>
      (Detail.carries_storeVarUint _ _ _).bind fun _ => hmembers)

end Members

theorem Encodable.carried (h : Encodable c) : c.Carried := by
  induction h with
  | null => exact fun _ _ _ _ _ _ => Detail.carries_storeInlineValue _ _
  | bool => exact fun _ _ _ _ _ _ => Detail.carries_storeInlineValue _ _
  | integer _ => exact carried_integerEncoder _
  | float => exact fun _ _ _ _ _ _ => Detail.carries_emitFloat _ _ _
  | double => exact fun _ _ _ _ _ _ => Detail.carries_emitFloat _ _ _
  | string => exact carried_stringEncoder
  | fixedU8string _ => exact fun _ => carried_emitU8string _
  | blob => exact carried_emitBinary
  | byteArray _ => exact fun _ => carried_emitBinary _
  | enum underlying _ => exact (carried_integerEncoder _).via underlying
  | duration count _ => exact (carried_integerEncoder _).via count
  | uuid _ => exact fun _ => carried_emitBinary _
  | path genericU8string => exact carried_stringEncoder.via genericU8string
  | stringRef data => exact carried_stringEncoder.via data
  | range _ _ ih => exact carried_rangeEncoder _ ih
  | indefiniteRange _ ih => exact carried_indefiniteRangeEncoder ih
  | map _ _ _ ihk ihc => exact carried_mapEncoder _ ihk ihc
  | indefiniteMap _ _ ihk ihc => exact carried_indefiniteMapEncoder ihk ihc
  | set _ _ ih => exact carried_rangeEncoder 64 ih
  | orderedMap _ _ _ ihk ihc => exact carried_mapEncoder 64 ihk ihc
  | array _ _ ih => exact (carried_rangeEncoder 64 ih).via List.ofFn
  | tuple _ _ ih => exact carried_tupleEncoder ih
  | packableTuple version _ _ ih => exact carried_packableTupleEncoder version ih
  | object _ _ _ _ ihkey ih => exact carried_objectEncoder _ ihkey ih

/-! ### Streams that may fail -/

/-- An encoder that succeeds on a stream that may fail at any call, and may grow by less than it was asked for, has
put out the whole encoding. -/
theorem encode_truthful (h : Encodable c) {v : α} (hv : c.IsValue v) {σ : Type} [OutputStream σ] (T : TruthfulOutput σ)
    {s t : OutputBuffer σ} {out : List UInt8} (hs : T.Holds s out) (hrun : c.encode v σ s = (.ok (), t)) :
    T.Holds t (out ++ c.bytes v) := by
  have hrescued : c.encode v (Forsaken σ) (s.map .stream) = (.ok (), t.map .stream) :=
    h.carried v (TruthfulOutput.rescue σ) _ _ _ hrun
  have hholds : T.honest.Holds (s.map .stream) out := hs
  obtain ⟨u, hu, hout⟩ := ((h.puts ⟨v, hv⟩).emits T.honest _ _ hholds).1 (Limit.fits_none _)
  cases hu.symm.trans hrescued
  exact hout

end DeepPack
