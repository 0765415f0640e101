import DeepPack.Codecs.Encodable
import DeepPack.Codecs.PropertyLookup
import DeepPack.Items.RoundTrip

/-! What the codecs encode they decode.

A decoder restores what its encoder wrote, whatever the destination held and whatever
stands behind the encoding. Each codec does so if the codecs it is built from do. -/
namespace DeepPack
open Library

/-- Decoding an encoded value gives the value back and takes nothing but its encoding. -/
def Restores {α : Type} (c : Encoder α) (d : Decoder α) : Prop :=
  ∀ v, c.IsValue v → ∀ w, ParseTakes (d.decode MemoryInputStream) (c.bytes v) () w v

variable {α κ ν ι : Type}

theorem Restores.asValue {c : Encoder α} {d : Decoder α} (h : Restores c d) {v : α} (hv : c.IsValue v) :
    InputTakes (d.asValue MemoryInputStream) (c.bytes v) v :=
  Action.TakesAhead.fresh (h v hv d.init)

/-! ### Leaves -/

theorem restores_bool : Restores boolEncoder boolDecoder := by
  intro v _ w
  rw [show boolEncoder.bytes v = _ from (puts_emitBoolean v).bytes_eq]
  exact takes_parseBoolean w v

theorem restores_integer {t : IntType} (ht : t.EncodableInt) : Restores (integerEncoder t) (integerDecoder t) := by
  intro v _ w
  rw [show (integerEncoder t).bytes v = _ from (puts_emitInteger ht v).bytes_eq]
  exact takes_parseInteger ht w v

theorem restores_float : Restores floatEncoder floatDecoder := by
  intro v _ w
  rw [show floatEncoder.bytes v = _ from (puts_emitFloatSingle v).bytes_eq]
  exact takes_parseFloatSingle w v

theorem restores_double : Restores doubleEncoder doubleDecoder := by
  intro v _ w
  rw [show doubleEncoder.bytes v = _ from (puts_emitFloatDouble v).bytes_eq]
  exact takes_parseFloatDouble w v

/-- A container that grew to the size of its new content is nothing but that. -/
theorem growable_overwrite (content w : List UInt8) :
    BlobContainer.growable.overwrite 0 content
      (w.take content.length ++ List.replicate (content.length - w.length) 0) = content := by
  show BlobContainer.putAt 0 content _ = content
  have hlen : (w.take content.length ++ List.replicate (content.length - w.length) 0).length =
      content.length := by
    rw [List.length_append, List.length_take, List.length_replicate]
    omega
  rw [BlobContainer.putAt, List.take_zero, List.nil_append, List.drop_of_length_le (by omega), List.append_nil]

theorem takes_parseGrowable {m : Nat} (hm : m = 2 ∨ m = 3) {content : List UInt8}
    (hlen : content.length < wordLimit) (w : List UInt8) :
    ParseTakes (Detail.parseBlob .growable true sizeMax (.ofMajor m))
      (Detail.varUintHead (.ofMajor m) content.length ++ content) content.length w content := by
  have htakes := takes_parseBlob (d := w) hm .growable true hlen (Nat.le_sub_one_of_lt hlen) rfl
  rwa [growable_overwrite] at htakes

theorem restores_string : Restores stringEncoder stringDecoder := by
  intro v hv w
  rw [show stringEncoder.bytes v = _ from (puts_emitU8string hv).bytes_eq]
  exact (takes_parseGrowable (m := 3) (.inr rfl) hv w).after (Action.takes_pure _)

theorem takes_attempt {δ : Type} {x : Parse MemoryInputStream δ α} {p : List UInt8} {a : α} {d d' : δ}
    (h : ParseTakes x p a d d') : ParseTakes (attempt x) p (.ok a) d d' := by
  intro w hahead hw
  rw [attempt, h w hahead hw]

theorem restores_blob : Restores blobEncoder blobDecoder := by
  intro v hv w
  rw [show blobEncoder.bytes v = _ from (puts_emitBinary hv).bytes_eq]
  exact (takes_attempt (takes_parseGrowable (m := 2) (.inl rfl) hv w)).after (Action.takes_pure _)

/-- Bytes written over as many are what is left. -/
theorem span_overwrite {content w : List UInt8} (h : content.length = w.length) :
    BlobContainer.span.overwrite 0 content w = content := by
  show BlobContainer.putAt 0 content w = content
  rw [BlobContainer.putAt, List.take_zero, List.nil_append, List.drop_of_length_le (by omega), List.append_nil]

theorem restores_byteArray (n : Nat) : Restores (byteArrayEncoder n) (byteArrayDecoder n) := by
  intro v hv w
  have hlen : v.val.length = w.val.length := v.property.trans w.property.symm
  have hwords : v.val.length < wordLimit := v.property.symm ▸ hv
  rw [show (byteArrayEncoder n).bytes v = _ from (puts_emitBinary hwords).bytes_eq]
  have hresize : BlobContainer.span.resize v.val.length w.val = some w.val := if_pos hlen.le
  have hparse := takes_parseBlob (m := 2) (.inl rfl) .span true hwords (Nat.le_sub_one_of_lt hwords) hresize
  rw [span_overwrite hlen] at hparse
  have hsize : ParseTakes (Action.onSnd (Action.gets List.length)) [] v.val.length v.val v.val := Action.takes_onSnd rfl
  have hspan : ParseTakes (Detail.decodeByteSpan MemoryInputStream)
      (Detail.varUintHead (.ofMajor 2) v.val.length ++ v.val) () w.val v.val :=
    (takes_attempt hparse).after (hsize.before (.ite_neg (fun h => h rfl) (Action.takes_pure _)))
  have harray : ParseTakes ((byteArrayDecoder n).decode MemoryInputStream)
      (Detail.varUintHead (.ofMajor 2) v.val.length ++ v.val) () w (ByteArrayOf.assign v.val w) :=
    Action.TakesAhead.within hspan
  rwa [ByteArrayOf.assign, dif_pos v.property] at harray

/-! ### Containers -/

section Containers
variable {c : Encoder α} {d : Decoder α} {k : Encoder κ} {kd : Decoder κ} {e : Encoder ν} {ed : Decoder ν}

theorem takes_decodeElement (h : Restores c d) {v : α} (hv : c.IsValue v) (vs : List α) :
    ParseTakes (Detail.decodeElement d) (c.bytes v) () vs (vs ++ [v]) := by
  have hwithin : ParseTakes (Action.within (fun vs => List.getLastD vs d.init) (fun v vs => List.dropLast vs ++ [v])
      (d.decode MemoryInputStream)) (c.bytes v) () (vs ++ [d.init]) ((vs ++ [d.init]).dropLast ++ [v]) :=
    Action.TakesAhead.within (h v hv _)
  rw [List.dropLast_concat] at hwithin
  exact Action.TakesAhead.before (Action.takes_onSnd rfl) hwithin

/-- A key above all the others goes to the end. -/
theorem emplace_last {lt : α → α → Bool} {v : α} {vs : List α} (h : ∀ e ∈ vs, lt e v) :
    Detail.emplace lt v vs = some (vs ++ [v]) := by
  induction vs with
  | nil => rfl
  | cons e rest ih =>
    rw [Detail.emplace, if_pos (h e List.mem_cons_self), ih fun e' he' => h e' (List.mem_cons_of_mem _ he')]
    rfl

theorem takes_emplace {lt : α → α → Bool} {v : α} {vs : List α} (h : ∀ e ∈ vs, lt e v) :
    ParseTakes (Action.onSnd (Detail.emplaceOrClear lt v)) [] () vs (vs ++ [v]) := by
  apply Action.takes_onSnd
  rw [Detail.emplaceOrClear, emplace_last h]

theorem takes_decodeKey {lt : κ → κ → Bool} (h : Restores k kd) {v : κ} (hv : k.IsValue v) {vs : List κ}
    (hlast : ∀ e ∈ vs, lt e v) : ParseTakes (Detail.decodeKey lt kd) (k.bytes v) () vs (vs ++ [v]) :=
  ((h.asValue hv).onFst vs).after (takes_emplace hlast)

theorem takes_decodePair {lt : κ → κ → Bool} (hk : Restores k kd) (he : Restores e ed) {v : κ × ν}
    (hv : Detail.IsPairValue k e v) {vs : List (κ × ν)} (hlast : ∀ p ∈ vs, lt p.1 v.1) :
    ParseTakes (Detail.decodePair lt kd ed) (Detail.pairBytes k e v) () vs (vs ++ [v]) := by
  refine ((hk.asValue hv.1).onFst vs).bind (((he.asValue hv.2).onFst vs).after ?_)
  exact takes_emplace hlast

/-- What `emplace` needs of a member of an ascending list. -/
theorem lt_of_split {lt : α → α → Prop} {vs pre post : List α} {v : α} (hasc : vs.Pairwise lt)
    (hsplit : vs = pre ++ v :: post) : v ∈ vs ∧ ∀ e ∈ pre, lt e v := by
  subst hsplit
  refine ⟨List.mem_append_right _ List.mem_cons_self, fun e he => ?_⟩
  exact (List.pairwise_append.mp hasc).2.2 e he v List.mem_cons_self

/-- A container is filled from nothing, and by its elements. -/
theorem takes_container {m n : Nat} (hm : m = 4 ∨ m = 5) (hn : n < wordLimit)
    {f : Nat → Parse MemoryInputStream (List α) Unit} {body : List UInt8} {vs : List α}
    (hbody : (if m = 5 then 2 else 1) * n ≤ body.length)
    (hf : ParseTakes (Action.forRange f 0 n) body () [] vs) (w : List α) :
    ParseTakes (do assign []; let _ ← Detail.parseArrayLike true sizeMax (.ofMajor m) f)
      (Detail.varUintHead (.ofMajor m) n ++ body) () w vs :=
  (takes_assign w []).before
    ((takes_parseArrayLike hm hn (Nat.le_sub_one_of_lt hn) hbody hf).after (Action.takes_pure _))

theorem restores_vector (hc : c.Exact) (h : Restores c d) : Restores (rangeEncoder 64 c) (vectorDecoder d) := by
  intro vs hvs w
  rw [show (rangeEncoder 64 c).bytes vs = _ from (puts_rangeEncoder (.inr rfl) hc hvs).bytes_eq]
  have hlen := (wellFormed_items fun v hv => (hc v (hvs.2 v hv)).2).items_length
  have hloop : ParseTakes (Action.forRange (fun _ => Detail.decodeElement d) 0 vs.length) (vs.flatMap c.bytes) ()
      [] vs := Action.takes_forRange (fun pre => pre) fun pre v post hsplit =>
    takes_decodeElement h (hvs.2 v (hsplit ▸ List.mem_append_right _ List.mem_cons_self)) pre
  exact takes_container (m := 4) (.inl rfl) hvs.1 (by rwa [if_neg (by decide), Nat.one_mul]) hloop w

theorem restores_set (lt : κ → κ → Bool) (hk : k.Exact) (h : Restores k kd) :
    Restores (setEncoder lt k) (setDecoder lt kd) := by
  intro vs hholds w
  obtain ⟨hvs, hasc⟩ := hholds
  rw [show (setEncoder lt k).bytes vs = _ from (puts_rangeEncoder (.inr rfl) hk hvs).bytes_eq]
  have hlen := (wellFormed_items fun v hv => (hk v (hvs.2 v hv)).2).items_length
  have hloop : ParseTakes (Action.forRange (fun _ => Detail.decodeKey lt kd) 0 vs.length) (vs.flatMap k.bytes) ()
      [] vs := Action.takes_forRange (fun pre => pre) fun pre v post hsplit =>
    takes_decodeKey h (hvs.2 v (lt_of_split hasc hsplit).1) (lt_of_split hasc hsplit).2
  exact takes_container (m := 4) (.inl rfl) hvs.1 (by rwa [if_neg (by decide), Nat.one_mul]) hloop w

theorem restores_map (lt : κ → κ → Bool) (hk : k.Exact) (he : e.Exact) (h : Restores k kd) (h' : Restores e ed) :
    Restores (orderedMapEncoder lt k e) (mapDecoder lt kd ed) := by
  intro vs hholds w
  obtain ⟨hvs, hasc⟩ := hholds
  rw [show (orderedMapEncoder lt k e).bytes vs = _ from (puts_mapEncoder (.inr rfl) hk he hvs).bytes_eq]
  have hlen := (wellFormed_pairs fun v hv => Detail.isPair_pairBytes hk he (hvs.2 v hv)).items_length
  have hloop : ParseTakes (Action.forRange (fun _ => Detail.decodePair lt kd ed) 0 vs.length)
      (vs.flatMap (Detail.pairBytes k e)) () [] vs := Action.takes_forRange (fun pre => pre) fun pre v post hsplit =>
    takes_decodePair h h' (hvs.2 v (lt_of_split hasc hsplit).1) (lt_of_split hasc hsplit).2
  exact takes_container (m := 5) (.inr rfl) hvs.1 (by rwa [if_pos rfl]) hloop w

end Containers
/-! ### Members -/

section Members
variable {n : Nat} {β : Fin n → Type} {c : ∀ i, Encoder (β i)} {d : ∀ i, Decoder (β i)}

/-- The first `k` members are those of `v` already. -/
def restored (v w : ∀ i, β i) (k : Nat) (i : Fin n) : β i := if i.val < k then v i else w i

theorem restored_zero (v w : ∀ i, β i) : restored v w 0 = w := rfl

theorem restored_all (v w : ∀ i, β i) : restored v w (List.finRange n).length = v := by
  funext i
  rw [List.length_finRange]
  exact if_pos i.isLt

theorem update_restored (v w : ∀ i, β i) (i : Fin n) :
    Function.update (restored v w i) i (v i) = restored v w (i + 1) := by
  funext j
  by_cases hj : j = i
  · subst hj
    rw [Function.update_self]
    exact (if_pos (Nat.lt_succ_self _)).symm
  · have hne : j.val ≠ i.val := fun h => hj (Fin.ext h)
    rw [Function.update_of_ne hj]
    exact if_congr (by omega) rfl rfl

/-- A member stands at its own index. -/
theorem finRange_split {pre post : List (Fin n)} {i : Fin n} (h : List.finRange n = pre ++ i :: post) :
    i.val = pre.length := by
  have hi : (List.finRange n)[pre.length]? = some i := by
    rw [h, List.getElem?_append_right (Nat.le_refl _), Nat.sub_self]
    rfl
  obtain ⟨hlt, hget⟩ := List.getElem?_eq_some_iff.mp hi
  rw [List.getElem_finRange] at hget
  exact congrArg Fin.val hget.symm

/-- The next member is restored. -/
theorem takes_member {x : Parse MemoryInputStream (∀ i, β i) α} {p : List UInt8} {a : α} {v : ∀ i, β i}
    {pre post : List (Fin n)} {i : Fin n} (hsplit : List.finRange n = pre ++ i :: post)
    (h : ∀ w, ParseTakes x p a w (Function.update w i (v i))) (w : ∀ i, β i) :
    ParseTakes x p a (restored v w pre.length) (restored v w (pre ++ [i]).length) := by
  have hi := h (restored v w i)
  rw [update_restored, finRange_split hsplit] at hi
  rwa [List.length_append, List.length_singleton]

theorem takes_members {f : Fin n → Parse MemoryInputStream (∀ i, β i) Unit} {word : Fin n → List UInt8}
    {v : ∀ i, β i} (h : ∀ i w, ParseTakes (f i) (word i) () w (Function.update w i (v i))) (w : ∀ i, β i) :
    ParseTakes (mpForDots f) ((List.finRange n).flatMap word) () w v := by
  have hstep : ∀ pre i post, List.finRange n = pre ++ i :: post →
      ParseTakes (f i) (word i) () (restored v w pre.length) (restored v w (pre ++ [i]).length) :=
    fun pre i post hsplit => takes_member hsplit (h i) w
  have hloop := Action.takes_forList (fun pre => restored v w pre.length) hstep
  rwa [List.length_nil, restored_zero, restored_all] at hloop

/-- The same, where the loop counts to the number of members. -/
theorem takes_indices {f : Nat → Parse MemoryInputStream (∀ i, β i) Unit} {word : Fin n → List UInt8}
    {v : ∀ i, β i} (h : ∀ (i : Fin n) w, ParseTakes (f i) (word i) () w (Function.update w i (v i)))
    (w : ∀ i, β i) : ParseTakes (Action.forRange f 0 n) ((List.finRange n).flatMap word) () w v := by
  have hstep : ∀ pre i post, List.finRange n = pre ++ i :: post →
      ParseTakes (f pre.length) (word i) () (restored v w pre.length) (restored v w (pre ++ [i]).length) :=
    fun pre i post hsplit => by
      rw [← finRange_split hsplit]
      have hi := takes_member hsplit (h i) w
      rwa [← finRange_split hsplit] at hi
  have hloop := Action.takes_forRange (fun pre => restored v w pre.length) hstep
  rwa [List.length_nil, restored_zero, restored_all, List.length_finRange] at hloop

theorem takes_onMember (h : ∀ i, Restores (c i) (d i)) {v : ∀ i, β i} (hv : ∀ i, (c i).IsValue (v i)) (i : Fin n)
    (w : ∀ i, β i) : ParseTakes (onMember i ((d i).decode MemoryInputStream)) ((c i).bytes (v i)) () w
      (Function.update w i (v i)) :=
  Action.TakesAhead.within (h i (v i) (hv i) (w i))

theorem takes_decodeMembers (h : ∀ i, Restores (c i) (d i)) {v : ∀ i, β i} (hv : ∀ i, (c i).IsValue (v i))
    (w : ∀ i, β i) :
    ParseTakes (mpForDots fun i => onMember i ((d i).decode MemoryInputStream)) (memberBytes c v) () w v :=
  takes_members (takes_onMember h hv) w

end Members

theorem restores_array (n : Nat) {c : Encoder α} {d : Decoder α} (hc : c.Exact) (h : Restores c d) :
    Restores (arrayEncoder n c) (arrayDecoder n d) := by
  intro v hv w
  have hbytes : (arrayEncoder n c).bytes v = Detail.varUintHead .array n ++
      (List.finRange n).flatMap fun i => c.bytes (v i) := by
    rw [show (arrayEncoder n c).bytes v = _ from (puts_rangeEncoder (.inr rfl) hc hv).bytes_eq, List.length_ofFn,
      List.ofFn_eq_map, List.flatMap_map]
  have hvalue : ∀ i, c.IsValue (v i) := fun i => hv.2 _ (List.mem_ofFn.mpr ⟨i, rfl⟩)
  have hn : n < wordLimit := by
    have hlen := hv.1
    rwa [List.length_ofFn] at hlen
  have hloop : ParseTakes (Action.forRange (Detail.decodeAt d) 0 n) ((List.finRange n).flatMap fun i => c.bytes (v i)) ()
      w v := takes_indices (fun i w => by
    unfold Detail.decodeAt
    rw [dif_pos i.isLt]
    exact Action.TakesAhead.within (h (v i) (hvalue i) (w i))) w
  have hlen := (wellFormed_members fun i => (hc (v i) (hvalue i)).2).items_length
  rw [hbytes]
  exact (takes_parseArrayLike (m := 4) (.inl rfl) hn (Nat.le_refl n) (by rwa [if_neg (by decide), Nat.one_mul])
    hloop).after (.ite_neg (fun h => h rfl) (Action.takes_pure _))

/-! ### Tuples -/

section Tuples
variable {n : Nat} {β : Fin n → Type} {c : ∀ i, Encoder (β i)} {d : ∀ i, Decoder (β i)}

theorem takes_expectArrayHead (hn : n < wordLimit) : InputTakes (expectItemHead .array n) (Detail.varUintHead .array n) () :=
  (takes_varUintHead (m := 4) (by decide) hn).after
    (.ite_neg (fun h => h rfl) (.ite_neg (by simp) (.ite_neg (fun h => h rfl) (Action.takes_pure _))))

theorem restores_tuple (hn : n < wordLimit) (hc : ∀ i, (c i).Exact) (h : ∀ i, Restores (c i) (d i)) :
    Restores (tupleEncoder c) (tupleDecoder d) := by
  intro v hv w
  rw [show (tupleEncoder c).bytes v = _ from (tupleEncoder_puts hn hc hv).bytes_eq]
  exact ((takes_expectArrayHead hn).onFst w).bind (takes_decodeMembers h hv w)

theorem versionBytes_eq (version : BitVec 32) :
    versionBytes version = Detail.varUintHead .posint version.toNat := by
  rw [show versionBytes version = _ from (puts_emitInteger encodableInt_versionType version).bytes_eq]
  rfl

theorem takes_parseVersion {version : BitVec 32} (h : version ≠ nullDefVersion) :
    InputTakes parseVersion (versionBytes version) version := by
  have hle : version.toNat ≤ nullDefVersion.toNat - 1 := by
    have hne : version.toNat ≠ nullDefVersion.toNat := fun heq => h (BitVec.toNat_inj.mp heq)
    have hlt : version.toNat < 2 ^ 32 := version.isLt
    have hnull : nullDefVersion.toNat = 2 ^ 32 - 1 := by decide
    omega
  have htakes := takes_parseUnsignedInteger (t := versionType) hle (version.isLt.trans (by decide)) 0
  rw [BitVec.ofNat_toNat, ← versionBytes_eq] at htakes
  have hversion : version.setWidth versionType.width = version := BitVec.setWidth_eq version
  rw [hversion] at htakes
  exact htakes.fresh

theorem versionBytes_length_pos (version : BitVec 32) : 0 < (versionBytes version).length :=
  (wellFormed_version version).item_length_pos

theorem takes_decodeTupleHead (hn : n < int32Max) (version : BitVec 32) :
    InputTakesAhead n (decodeTupleHead (version != nullDefVersion)) (tuplePrefix n version) ⟨n, version⟩ := by
  have hmax : int32Max < wordLimit := by decide
  rw [tuplePrefix]
  by_cases hnull : version = nullDefVersion
  · rw [if_pos hnull, hnull]
    refine (takes_varUintHead (m := 4) (by decide) (by omega)).after (.ite_neg (not_or.mpr ⟨fun h => h rfl, by simp⟩) ?_)
    refine takes_inputSize fun size hsize => .ite_neg (Nat.not_lt.mpr ?_) (.ite_neg (Nat.not_lt.mpr hn.le) ?_)
    · rwa [List.length_nil, Nat.zero_add] at hsize
    · exact .ite_neg (by simp) (Action.takes_pure _)
  · rw [if_neg hnull]
    have hpos := versionBytes_length_pos version
    refine (takes_varUintHead (m := 4) (by decide) (by omega)).bind (.ite_neg (not_or.mpr ⟨fun h => h rfl, by simp⟩) ?_)
    refine takes_inputSize fun size hsize => .ite_neg (Nat.not_lt.mpr ?_) (.ite_neg (Nat.not_lt.mpr hn) ?_)
    · show n + 1 ≤ size
      omega
    · refine .ite_pos (by simpa using hnull) (.ite_neg (Nat.not_lt.mpr (Nat.le_add_left 1 n)) ?_)
      exact (takes_parseVersion hnull).after (Action.takes_pure _)

theorem restores_packableTuple (hn : n < int32Max) (version : BitVec 32) (hc : ∀ i, (c i).Exact)
    (h : ∀ i, Restores (c i) (d i)) : Restores (packableTupleEncoder version c) (packableTupleDecoder version d) := by
  intro v hv w
  have hmax : int32Max < wordLimit := by decide
  have hputs := packableTupleEncoder_puts (by omega) version hc hv
  rw [show (packableTupleEncoder version c).bytes v = _ from hputs.bytes_eq]
  have hlen : n ≤ (memberBytes c v).length := (wellFormed_members fun i => (hc i (v i) (hv i)).2).items_length
  refine ((takes_decodeTupleHead hn version).onFst w).bindAhead ?_ hlen
  exact .ite_neg (fun h => h.2 rfl) (.ite_neg (fun h => h rfl) (takes_decodeMembers h hv w))

end Tuples
/-! ### Objects -/

section Objects
variable {n : Nat} {β : Fin n → Type} {D : ObjectDef ι n} {key : Encoder ι} {c : ∀ i, Encoder (β i)}
  {d : ∀ i, Decoder (β i)}

/-- The entries of an object's map: the properties, and the version if there is one. -/
def numEntries (n : Nat) (version : BitVec 32) : Nat := if version = nullDefVersion then n else n + 1

theorem takes_decodeObjectHead {version : BitVec 32} (hn : numEntries n version < int32Max / 2) :
    InputTakesAhead (2 * n) (decodeObjectHead (version != nullDefVersion)) (objectPrefix n version) ⟨n, version⟩ := by
  have hmax : int32Max / 2 < wordLimit := by decide
  rw [numEntries] at hn
  rw [objectPrefix]
  by_cases hnull : version = nullDefVersion
  · rw [if_pos hnull] at hn ⊢
    rw [hnull]
    refine (takes_varUintHead (m := 5) (by decide) (by omega)).after (.ite_neg (not_or.mpr ⟨fun h => h rfl, by simp⟩) ?_)
    by_cases hzero : n = 0
    · subst hzero
      exact .ite_pos rfl (Action.takes_pure _)
    refine .ite_neg hzero (takes_inputSize fun size hsize => .ite_neg (Nat.not_lt.mpr ?_) (.ite_neg (Nat.not_le.mpr hn) ?_))
    · rw [List.length_nil] at hsize
      show n ≤ size / 2
      omega
    · exact .ite_neg (by simp) (Action.takes_pure _)
  · rw [if_neg hnull] at hn ⊢
    have hpos := versionBytes_length_pos version
    refine (takes_varUintHead (m := 5) (by decide) (by omega)).bind (.ite_neg (not_or.mpr ⟨fun h => h rfl, by simp⟩) ?_)
    refine .ite_neg (Nat.succ_ne_zero n) (takes_inputSize fun size hsize => .ite_neg (Nat.not_lt.mpr ?_)
      (.ite_neg (Nat.not_le.mpr hn) ?_))
    · rw [List.length_cons] at hsize
      show n + 1 ≤ size / 2
      omega
    · exact .ite_pos (by simpa using hnull) (takes_peekByte ((takes_parseVersion hnull).after (Action.takes_pure _)))

section Properties
variable {property : Parse MemoryInputStream (∀ i, β i) Nat} {word : Fin n → List UInt8} {v : ∀ i, β i}

/-- The members in the list are those of `v`, and the others as they were. -/
def assigned (v w : ∀ i, β i) (l : List (Fin n)) (i : Fin n) : β i := if i ∈ l then v i else w i

theorem assigned_nil (v w : ∀ i, β i) : assigned v w [] = w := funext fun _ => if_neg List.not_mem_nil

theorem assigned_all {l : List (Fin n)} (h : ∀ i, i ∈ l) (v w : ∀ i, β i) : assigned v w l = v :=
  funext fun i => if_pos (h i)

theorem update_assigned (v w : ∀ i, β i) (l : List (Fin n)) (i : Fin n) :
    Function.update (assigned v w l) i (v i) = assigned v w (l ++ [i]) := by
  funext j
  by_cases hj : j = i
  · subst hj
    rw [Function.update_self]
    exact (if_pos (List.mem_append_right l List.mem_cons_self)).symm
  · rw [Function.update_of_ne hj]
    exact if_congr (by simp [hj]) rfl rfl

/-- The next entry is decoded into its member. -/
theorem takes_entry {x : Parse MemoryInputStream (∀ i, β i) α} {p : List UInt8} {a : α} {i : Fin n}
    (h : ∀ w, ParseTakes x p a w (Function.update w i (v i))) (w : ∀ i, β i) (l : List (Fin n)) :
    ParseTakes x p a (assigned v w l) (assigned v w (l ++ [i])) := by
  rw [← update_assigned]
  exact h _

/-- The loop over the properties marks those there are. -/
theorem takes_decodeFoundProperties
    (h : ∀ (i : Fin n) w, ParseTakes property (word i) i.val w (Function.update w i (v i))) (l : List (Fin n))
    (found : List (BitVec 64)) (w : ∀ i, β i) :
    ParseTakes (decodeFoundProperties property l.length found) (l.flatMap word)
      (l.foldl (fun b (i : Fin n) => Detail.markProperty b i true) found) w (assigned v w l) := by
  have hsuffix : ∀ post pre found, ParseTakes (decodeFoundProperties property post.length found) (post.flatMap word)
      (post.foldl (fun b (i : Fin n) => Detail.markProperty b i true) found) (assigned v w pre)
      (assigned v w (pre ++ post)) := by
    intro post
    induction post with
    | nil =>
      intro pre found
      rw [List.append_nil]
      exact Action.takes_pure found
    | cons i post ih =>
      intro pre found
      have hrest := ih (pre ++ [i]) (Detail.markProperty found i true)
      rw [List.append_assoc] at hrest
      exact (takes_entry (h i) w pre).bind hrest
  have hloop := hsuffix l [] found
  rwa [assigned_nil] at hloop

/-- Entries in any order are decoded if no property comes twice and none that is required is missing. -/
theorem takes_decodeObjectProperties (D : ObjectDef ι n)
    (h : ∀ (i : Fin n) w, ParseTakes property (word i) i.val w (Function.update w i (v i))) {l : List (Fin n)}
    (hnodup : l.Nodup) (hrequired : ∀ i, D.required i = true → i ∈ l) (w : ∀ i, β i) :
    ParseTakes (decodeObjectProperties D property l.length) (l.flatMap word) () w (assigned v w l) := by
  unfold decodeObjectProperties
  by_cases hoptional : D.hasOptionalProperties
  · refine .ite_pos hoptional ((takes_decodeFoundProperties h l (Detail.noProperties n) w).after (.ite_neg ?_ ?_))
    · exact not_not.mpr ((Detail.completeBuckets_marked_iff D l).mpr hrequired)
    · exact Action.takes_pure ()
  · have hall : ∀ i, i ∈ l := by
      rw [ObjectDef.hasOptionalProperties, Bool.not_eq_true, Bool.not_eq_false', List.all_eq_true] at hoptional
      exact fun i => hrequired i (hoptional i (List.mem_finRange i))
    have hperm : l.Perm (List.finRange n) :=
      (List.perm_ext_iff_of_nodup hnodup (List.nodup_finRange n)).mpr fun i => iff_of_true (hall i) (List.mem_finRange i)
    have hn : n = l.length := by rw [hperm.length_eq, List.length_finRange]
    have hloop : ParseTakes (Action.forRange (fun _ => do let _ ← property) 0 l.length) (l.flatMap word) ()
        (assigned v w []) (assigned v w l) := Action.takes_forRange (fun pre => assigned v w pre) fun pre i _ _ =>
      (takes_entry (h i) w pre).after (Action.takes_pure ())
    rw [assigned_nil] at hloop
    exact .ite_neg hoptional (.ite_neg (not_not.mpr hn) hloop)

theorem takes_decodeObject {l : List (Fin n)} (hn : numEntries l.length D.version < int32Max / 2)
    (h : ∀ (i : Fin n) w, ParseTakes property (word i) i.val w (Function.update w i (v i))) (hnodup : l.Nodup)
    (hrequired : ∀ i, D.required i = true → i ∈ l) (hlen : 2 * l.length ≤ (l.flatMap word).length) (w : ∀ i, β i) :
    ParseTakes (decodeObject D property) (objectPrefix l.length D.version ++ l.flatMap word) () w (assigned v w l) := by
  refine ((takes_decodeObjectHead hn).onFst w).bindAhead ?_ hlen
  exact .ite_neg (fun h => h.2 rfl) (takes_decodeObjectProperties D h hnodup hrequired w)

end Properties

theorem takes_decodePropByIndex (h : ∀ i, Restores (c i) (d i)) {v : ∀ i, β i} (hv : ∀ i, (c i).IsValue (v i))
    (i : Fin n) (w : ∀ i, β i) :
    ParseTakes (Detail.decodePropByIndex d (some i.val)) ((c i).bytes (v i)) i.val w (Function.update w i (v i)) := by
  rw [Detail.decodePropByIndex_of_lt d i.isLt]
  exact (takes_onMember h hv i w).after (Action.takes_pure _)

/-- Objects whose entries stand in any order come back if their ids do and are found. -/
theorem takes_objectEntries (hkey : key.Exact) (hids : ∀ i, key.IsValue (D.ids i)) (hc : ∀ i, (c i).Exact)
    (h : ∀ i, Restores (c i) (d i)) {readId : Input MemoryInputStream ι} {lookup : ι → Option Nat}
    (hread : ∀ i, InputTakes readId (key.bytes (D.ids i)) (D.ids i)) (hlookup : ∀ i, lookup (D.ids i) = some i.val)
    {v : ∀ i, β i} (hv : ∀ i, (c i).IsValue (v i)) {l : List (Fin n)}
    (hn : numEntries l.length D.version < int32Max / 2) (hnodup : l.Nodup)
    (hrequired : ∀ i, D.required i = true → i ∈ l) (w : ∀ i, β i) :
    ParseTakes (decodeObject D do
        let id ← Action.onFst readId
        Detail.decodePropByIndex d (lookup id))
      (objectPrefix l.length D.version ++ l.flatMap fun i => key.bytes (D.ids i) ++ (c i).bytes (v i)) ()
      w (assigned v w l) := by
  refine takes_decodeObject hn (fun i w => ((hread i).onFst w).bind ?_) hnodup hrequired ?_ w
  · rw [hlookup i]
    exact takes_decodePropByIndex h hv i w
  · have hentries : WellFormed (.items (2 * l.length)) (l.flatMap fun i => key.bytes (D.ids i) ++ (c i).bytes (v i)) :=
      wellFormed_pairs fun i _ => ⟨_, _, rfl, (hkey (D.ids i) (hids i)).2, (hc i (v i) (hv i)).2⟩
    exact hentries.items_length

theorem restores_decodeObject (hn : numEntries n D.version < int32Max / 2) (hkey : key.Exact)
    (hids : ∀ i, key.IsValue (D.ids i)) (hc : ∀ i, (c i).Exact) (h : ∀ i, Restores (c i) (d i))
    {readId : Input MemoryInputStream ι} {lookup : ι → Option Nat}
    (hread : ∀ i, InputTakes readId (key.bytes (D.ids i)) (D.ids i)) (hlookup : ∀ i, lookup (D.ids i) = some i.val)
    {v : ∀ i, β i} (hv : ∀ i, (c i).IsValue (v i)) (w : ∀ i, β i) :
    ParseTakes (decodeObject D do
        let id ← Action.onFst readId
        Detail.decodePropByIndex d (lookup id)) ((objectEncoder D key c).bytes v) () w v := by
  have hmax : int32Max / 2 < wordLimit := by decide
  have hle : n + 1 < wordLimit := by
    rw [numEntries] at hn
    split at hn <;> omega
  rw [show (objectEncoder D key c).bytes v = _ from (objectEncoder_puts hle hkey hids hc hv).bytes_eq]
  have hall := takes_objectEntries hkey hids hc h hread hlookup hv (l := List.finRange n)
    (by rwa [List.length_finRange]) (List.nodup_finRange n) (fun i _ => List.mem_finRange i) w
  rwa [List.length_finRange, assigned_all List.mem_finRange] at hall

end Objects
end DeepPack
