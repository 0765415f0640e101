import DeepPack.Items.FloatValues
import DeepPack.Items.IntegerValues
import DeepPack.Items.RangeEncodings
import DeepPack.Codecs.Locality
import Mathlib.Data.Fin.VecNotation

/-! What one type's decoder makes of what another type's encoder wrote.

A program reads what an older one wrote: its integers have become wider, its `float`s
`double`s, its sets vectors, and its objects have got members that are not required. The
value comes to the reader's type, and a member the writer did not have stays as it was. -/
namespace DeepPack
open Library

variable {α α' β κ κ' ν ν' ι : Type}

/-- A value `v` is decoded to `f v w` where `w` was before, and nothing but its encoding is taken. -/
def ReadsAs (c : Encoder α) (d : Decoder β) (f : α → β → β) : Prop :=
  ∀ v, c.IsValue v → ∀ w, ParseTakes (d.decode MemoryInputStream) (c.bytes v) () w (f v w)

theorem ReadsAs.asValue {c : Encoder α} {d : Decoder β} {f : α → β → β} (h : ReadsAs c d f) {v : α} (hv : c.IsValue v) :
    InputTakes (d.asValue MemoryInputStream) (c.bytes v) (f v d.init) :=
  Action.TakesAhead.fresh (h v hv d.init)

theorem Restores.reads {c : Encoder α} {d : Decoder α} (h : Restores c d) : ReadsAs c d fun v _ => v := h

/-- What is parsed from any memory is taken. -/
theorem takes_of_parses {δ : Type} {x : Parse MemoryInputStream δ α} {p : List UInt8} {a : α} {d d' : δ}
    (h : ∀ rest s, MemoryInputStream.contract.Valid s → MemoryInputStream.contract.unread s = p ++ rest →
      MemoryInputStream.contract.toRequire.Parses x s d (.ok a) d' rest) : ParseTakes x p a d d' := by
  intro rest _ hlen
  obtain ⟨t, hrun, ⟨b, rfl, -⟩, hb⟩ := h rest (memoryInput (p ++ rest)) (MemoryInputStream.valid_memory hlen) rfl
  obtain rfl : b = rest := hb
  exact hrun

/-! ### Numbers -/

namespace IntType
variable {t u : IntType}

theorem represents_value (v : BitVec t.width) : t.Represents (t.value v) := by
  rw [Represents, value]
  split
  · exact ⟨BitVec.le_toInt v, BitVec.toInt_lt⟩
  · exact ⟨Int.natCast_nonneg _, by exact_mod_cast v.isLt⟩

/-- The head of an integer denotes it. -/
theorem value_eq (ht : t.EncodableInt) (v : BitVec t.width) {m : Nat} (hm : m = 0 ∨ m = 1)
    (hcategory : t.category v = .ofMajor m) :
    t.value v = if m = 0 then ((t.uvalue v).toNat : Int) else -1 - (t.uvalue v).toNat := by
  rw [value]
  by_cases hsigned : t.signed
  · have hpadded := toInt_padded ht hsigned (uvalue_le ht v) hm
    rw [← hcategory, uvalue_xor ht hsigned v] at hpadded
    rw [if_pos hsigned, hpadded]
  · have hzero : m = 0 := by
      rw [category, if_neg fun h => hsigned h.1] at hcategory
      exact ((TypeCode.ofMajor_inj (m := 0) (by decide) (by omega)).mp hcategory).symm
    rw [if_neg hsigned, if_pos hzero, uvalue, if_neg hsigned]

/-- `static_cast` to a type that represents the integer. -/
def convert (t u : IntType) (v : BitVec t.width) : BitVec u.width := BitVec.ofInt u.width (t.value v)

/-- The pattern of an integer of the type. -/
theorem eq_ofInt {v : BitVec u.width} {n : Int} (h : u.value v = n) : v = BitVec.ofInt u.width n := by
  rw [← h, value]
  split
  · exact (BitVec.ofInt_toInt).symm
  · rw [BitVec.ofInt_natCast, BitVec.ofNat_toNat, BitVec.setWidth_eq]

end IntType

/-- Every integer of the writer's type is one of the reader's. -/
theorem reads_integer {t u : IntType} (ht : t.EncodableInt) (hu : u.EncodableInt)
    (h : ∀ n, t.Represents n → u.Represents n) : ReadsAs (integerEncoder t) (integerDecoder u) fun v _ => t.convert u v := by
  intro v _ w
  obtain ⟨m, hm, hcategory⟩ := t.category_eq v
  have hvalue := IntType.value_eq ht v hm hcategory
  have hrepresents : u.Represents (t.value v) := h _ (t.represents_value v)
  obtain ⟨info, hhead⟩ := Detail.head_varUintHead (m := m) (by omega) (IntType.uvalue_lt ht v)
  have hread : ReadFrom ⟨.ofMajor m, 0, _, (t.uvalue v).toNat⟩ _ := .definite (by omega) hhead fun hbad => by
    have := hbad.1
    omega
  have hdenoted : ∀ len, u.denoted ⟨.ofMajor m, 0, len, (t.uvalue v).toNat⟩ = some (t.value v) := by
    intro len
    rcases hm with rfl | rfl
    · exact hvalue ▸ if_pos rfl
    · -- a negative integer is one of no unsigned type
      have hsigned : u.signed := by
        by_contra hsigned
        rw [IntType.Represents, if_neg hsigned, hvalue, if_neg (by decide)] at hrepresents
        omega
      exact hvalue ▸ (if_neg fun h => by cases h).trans (if_pos ⟨rfl, hsigned⟩)
  have hbytes : (integerEncoder t).bytes v = _ := (puts_emitInteger ht v).bytes_eq
  rw [hbytes, hcategory]
  refine takes_of_parses fun rest s hs hunread => ?_
  show RequireContract.Parses _ (parseInteger u) s w _ _ rest
  rw [parseInteger]
  split
  · rename_i hsigned
    have hdenotes := RequireContract.denotes_parseSignedInteger (R := MemoryInputStream.contract.toRequire) hu hsigned hs hread
      hunread w
    rw [hdenoted] at hdenotes
    obtain ⟨v', hv', hparses⟩ := hdenotes.1 hrepresents
    obtain rfl := IntType.eq_ofInt hv'
    exact hparses
  · rename_i hsigned
    have hdenotes := RequireContract.denotes_parseUnsignedInteger (R := MemoryInputStream.contract.toRequire) hsigned
      (Nat.le_refl _) hs hread hunread w
    rw [hdenoted] at hdenotes
    have hle : t.value v ≤ u.maxValue := by
      have hnonneg : 0 ≤ t.value v := by
        rw [IntType.Represents, if_neg hsigned] at hrepresents
        exact hrepresents.1
      rw [← Int.toNat_of_nonneg hnonneg] at hrepresents ⊢
      exact_mod_cast (IntType.represents_unsigned hsigned).mp hrepresents
    obtain ⟨v', hv', hparses⟩ := hdenotes.1 ⟨hrepresents, hle⟩
    obtain rfl := IntType.eq_ofInt hv'
    exact hparses

/-- A `float` is read as the `double` of the same number. -/
theorem reads_float : ReadsAs floatEncoder doubleDecoder fun v _ => BitVec.ofNat 64 (Detail.widen v.toNat) := by
  intro v _ w
  rw [show floatEncoder.bytes v = _ from (puts_emitFloatSingle v).bytes_eq]
  refine ((takes_floatHead (p := 2) (by decide) (by decide) v.isLt).onFst w).after ?_
  refine .ite_neg (not_or.mpr ⟨fun h => h rfl, (by decide : ¬ 5 < 3)⟩) (.ite_neg (by decide : ¬ 5 = 9) (.ite_pos rfl ?_))
  exact takes_assign w _

/-! ### Strings and wrappers -/

/-- Another encoder of the same bytes. -/
theorem ReadsAs.of_bytes {c : Encoder α} {d : Decoder β} {f : α → β → β} (h : ReadsAs c d f) {c' : Encoder α'} {g : α' → α}
    (hc : ∀ v, c'.IsValue v → c.IsValue (g v) ∧ c'.bytes v = c.bytes (g v)) : ReadsAs c' d fun v => f (g v) := by
  intro v hv w
  rw [(hc v hv).2]
  exact h (g v) (hc v hv).1 w

/-- A string in an array of its own is a string. -/
theorem reads_fixedU8string (capacity : Nat) : ReadsAs (fixedU8stringEncoder capacity) stringDecoder fun v _ => v.view :=
  restores_string.reads.of_bytes fun v hv => by
    obtain ⟨hcapacity, hlen, -⟩ := hv
    refine ⟨?_, rfl⟩
    show v.view.length < wordLimit
    rw [FixedU8string.view, List.length_take]
    have hle : 2 ^ 32 ≤ wordLimit := by decide
    omega

/-- So many bytes are bytes. -/
theorem reads_byteArray (n : Nat) : ReadsAs (byteArrayEncoder n) blobDecoder fun v _ => v.val :=
  restores_blob.reads.of_bytes fun v hv => ⟨show v.val.length < wordLimit from v.property.symm ▸ hv, rfl⟩

theorem ReadsAs.cast {c : Encoder α} {d : Decoder β} {f : α → β → β} (h : ReadsAs c d f) (g : β → ν) :
    ReadsAs c (d.via g) fun v _ => g (f v d.init) :=
  fun _ hv w => Decoder.takes_via w (h.asValue hv)

/-! ### Containers -/

section Containers
variable {c : Encoder α} {d : Decoder β} {f : α → β → β} {k : Encoder κ} {kd : Decoder κ'} {g : κ → κ' → κ'}
  {lt : κ → κ → Bool} {lt' : κ' → κ' → Bool}

theorem reads_decodeElement (h : ReadsAs c d f) {v : α} (hv : c.IsValue v) (vs : List β) :
    ParseTakes (Detail.decodeElement d) (c.bytes v) () vs (vs ++ [f v d.init]) := by
  have hwithin : ParseTakes (Action.within (fun vs => List.getLastD vs d.init) (fun v vs => List.dropLast vs ++ [v])
      (d.decode MemoryInputStream)) (c.bytes v) () (vs ++ [d.init]) ((vs ++ [d.init]).dropLast ++ [f v d.init]) := by
    refine Action.TakesAhead.within ?_
    rw [List.getLastD_concat]
    exact h v hv d.init
  rw [List.dropLast_concat] at hwithin
  exact Action.TakesAhead.before (Action.takes_onSnd rfl) hwithin

/-- The elements in order, each decoded on its own. -/
theorem reads_vector (hc : c.Exact) (h : ReadsAs c d f) :
    ReadsAs (rangeEncoder 64 c) (vectorDecoder d) fun vs _ => vs.map fun v => f v d.init := by
  intro vs hvs w
  rw [show (rangeEncoder 64 c).bytes vs = _ from (puts_rangeEncoder (.inr rfl) hc hvs).bytes_eq]
  have hlen := (wellFormed_items fun v hv => (hc v (hvs.2 v hv)).2).items_length
  have hloop : ParseTakes (Action.forRange (fun _ => Detail.decodeElement d) 0 vs.length) (vs.flatMap c.bytes) ()
      [] (vs.map fun v => f v d.init) := Action.takes_forRange (fun pre => pre.map fun v => f v d.init)
    fun pre v post hsplit => by
      rw [List.map_append]
      exact reads_decodeElement h (hvs.2 v (hsplit ▸ List.mem_append_right _ List.mem_cons_self)) _
  exact takes_container (m := 4) (.inl rfl) hvs.1 (by rwa [if_neg (by decide), Nat.one_mul]) hloop w

theorem reads_set (hk : k.Exact) (h : ReadsAs k kd g) (hmono : ∀ a b, lt a b → lt' (g a kd.init) (g b kd.init)) :
    ReadsAs (setEncoder lt k) (setDecoder lt' kd) fun vs _ => vs.map fun v => g v kd.init := by
  intro vs hholds w
  obtain ⟨hvs, hasc⟩ := hholds
  rw [show (setEncoder lt k).bytes vs = _ from (puts_rangeEncoder (.inr rfl) hk hvs).bytes_eq]
  have hlen := (wellFormed_items fun v hv => (hk v (hvs.2 v hv)).2).items_length
  have hloop : ParseTakes (Action.forRange (fun _ => Detail.decodeKey lt' kd) 0 vs.length) (vs.flatMap k.bytes) ()
      [] (vs.map fun v => g v kd.init) := Action.takes_forRange (fun pre => pre.map fun v => g v kd.init)
    fun pre v post hsplit => by
      rw [List.map_append]
      have hv := lt_of_split hasc hsplit
      refine ((h.asValue (hvs.2 v hv.1)).onFst _).after (takes_emplace ?_)
      exact List.forall_mem_map.mpr fun a ha => hmono a v (hv.2 a ha)
  exact takes_container (m := 4) (.inl rfl) hvs.1 (by rwa [if_neg (by decide), Nat.one_mul]) hloop w

theorem reads_map {e : Encoder ν} {ed : Decoder ν'} {f : ν → ν' → ν'} (hk : k.Exact) (he : e.Exact) (h : ReadsAs k kd g)
    (h' : ReadsAs e ed f) (hmono : ∀ a b, lt a b → lt' (g a kd.init) (g b kd.init)) :
    ReadsAs (orderedMapEncoder lt k e) (mapDecoder lt' kd ed)
      fun vs _ => vs.map fun v => (g v.1 kd.init, f v.2 ed.init) := by
  intro vs hholds w
  obtain ⟨hvs, hasc⟩ := hholds
  rw [show (orderedMapEncoder lt k e).bytes vs = _ from (puts_mapEncoder (.inr rfl) hk he hvs).bytes_eq]
  have hlen := (wellFormed_pairs fun v hv => Detail.isPair_pairBytes hk he (hvs.2 v hv)).items_length
  have hloop : ParseTakes (Action.forRange (fun _ => Detail.decodePair lt' kd ed) 0 vs.length)
      (vs.flatMap (Detail.pairBytes k e)) () [] (vs.map fun v => (g v.1 kd.init, f v.2 ed.init)) :=
    Action.takes_forRange (fun pre => pre.map fun v : κ × ν => (g v.1 kd.init, f v.2 ed.init)) fun pre v post hsplit => by
      rw [List.map_append]
      have hv := lt_of_split hasc hsplit
      have hpair := hvs.2 v hv.1
      refine ((h.asValue hpair.1).onFst _).bind (((h'.asValue hpair.2).onFst _).after (takes_emplace ?_))
      exact List.forall_mem_map.mpr fun a ha => hmono a.1 v.1 (hv.2 a ha)
  exact takes_container (m := 5) (.inr rfl) hvs.1 (by rwa [if_pos rfl]) hloop w

/-! ### Ranges that end with a break -/

theorem initialByte_ne_break {m info : Nat} (h : m * 32 + info < 255) : initialByte m info ≠ breakByte := by
  intro heq
  have hnat := congrArg UInt8.toNat heq
  rw [initialByte, UInt8.toNat_ofNat', Nat.mod_eq_of_lt (by omega)] at hnat
  exact absurd hnat (Nat.ne_of_lt h)

theorem Head.head_ne_break {m info v : Nat} {head : List UInt8} (hm : m < 8) (h : Head m info v head)
    (rest : List UInt8) : (head ++ rest).head? ≠ some breakByte := by
  intro heq
  cases h with
  | inline hv => exact initialByte_ne_break (by omega) (Option.some.inj heq)
  | payload hp => exact initialByte_ne_break (by omega) (Option.some.inj heq)

/-- No item begins like a break. -/
theorem WellFormed.item_head_ne_break {p : List UInt8} (h : WellFormed .item p) : p.head? ≠ some breakByte := by
  cases h with
  | int hm hhead =>
    rw [← List.append_nil p]
    exact hhead.head_ne_break (by omega) []
  | simple hhead =>
    rw [← List.append_nil p]
    exact hhead.head_ne_break (by decide) []
  | string hm hhead => exact hhead.head_ne_break (by omega) _
  | array hhead | map hhead | tag hhead => exact hhead.head_ne_break (by decide) _
  | stringIndefinite hm => exact fun heq => initialByte_ne_break (by omega) (Option.some.inj heq)
  | arrayIndefinite | mapIndefinite => exact fun heq => initialByte_ne_break (by decide) (Option.some.inj heq)

/-- What is taken from memory is taken by the parser's contract. -/
theorem takes_toRequire {δ : Type} {x : Parse MemoryInputStream δ Unit} {p : List UInt8} {d d' : δ}
    (h : ParseTakes x p () d d') : MemoryInputStream.contract.toRequire.Takes x p d d' := by
  intro s rest hs hunread
  obtain ⟨b, rfl, hb⟩ := hs
  obtain rfl : b = p ++ rest := hunread
  have hrest : rest.length < wordLimit := by
    rw [List.length_append] at hb
    omega
  exact ⟨memoryInput rest, h rest (Nat.zero_le _) hb, MemoryInputStream.valid_memory hrest, rfl⟩

/-- A container is filled from nothing, and by its elements up to the break. -/
theorem takes_containerIndefinite {m : Nat} (hm : m = 4 ∨ m = 5) {f : Nat → Parse MemoryInputStream (List β) Unit}
    {es : List (List UInt8)} {dest : Nat → List β} (h : MemoryInputStream.contract.toRequire.TakesAll f es 0 dest)
    (hes : RequireContract.Elements m es) (hempty : dest 0 = []) (w : List β) :
    ParseTakes (do assign []; let _ ← Detail.parseArrayLike true sizeMax (.ofMajor m) f)
      (initialByte m 31 :: (es.flatten ++ [breakByte])) () w (dest es.length) := by
  have htakes : ParseTakes (Detail.parseArrayLike true sizeMax (.ofMajor m) f) (initialByte m 31 :: (es.flatten ++ [breakByte]))
      es.length [] (dest es.length) := by
    refine takes_of_parses fun rest s hs hunread => ?_
    have hruns := h.runs (breakByte :: rest)
    rw [hempty, Nat.zero_add] at hruns
    rw [List.cons_append, List.append_assoc] at hunread
    exact (hes.indefinite hm hruns hs hunread).parses
  exact (takes_assign w []).before (htakes.after (Action.takes_pure _))

/-- A range that ends with a break is read like one whose size is known. -/
theorem reads_indefiniteRange (hc : c.Exact) (h : ReadsAs c d f) :
    ReadsAs (indefiniteRangeEncoder c) (vectorDecoder d) fun vs _ => vs.map fun v => f v d.init := by
  intro vs hvs w
  have hputs : Puts ((indefiniteRangeEncoder c).encode vs) ((indefiniteRangeEncoder c).sizeOf vs) _ :=
    puts_indefiniteArrayLike (m := 4) (.inl rfl) fun v hv => (hc v (hvs v hv)).1
  have hbytes : (indefiniteRangeEncoder c).bytes vs = _ := hputs.bytes_eq
  have hall : MemoryInputStream.contract.toRequire.TakesAll (fun _ => Detail.decodeElement d) (vs.map c.bytes) 0
      fun j => (vs.take j).map fun v => f v d.init := by
    intro j hj
    have hj' : j < vs.length := by rwa [List.length_map] at hj
    have helement := reads_decodeElement h (hvs vs[j] (List.getElem_mem hj')) ((vs.take j).map fun v => f v d.init)
    have htake : (vs.take j).map (fun v => f v d.init) ++ [f vs[j] d.init] = (vs.take (j + 1)).map fun v => f v d.init := by
      rw [← List.take_concat_get' vs j hj', List.map_append]
      rfl
    rw [htake] at helement
    rw [Nat.zero_add, List.getElem_map]
    exact takes_toRequire helement
  have helements : RequireContract.Elements 4 (vs.map c.bytes) := List.forall_mem_map.mpr fun v hv =>
    have hitem := (hc v (hvs v hv)).2
    ⟨hitem.item_length_pos, hitem.item_head_ne_break⟩
  have htakes := takes_containerIndefinite (.inl rfl) hall helements rfl w
  rw [List.length_map, List.take_length, ← List.flatMap_def] at htakes
  rw [hbytes]
  exact htakes

end Containers

/-! ### Members -/

section Members
variable {n m : Nat} {δ : Fin n → Type} {ε : Fin m → Type}

/-- The writer's members are read, one after the other, into the members of the reader that `e` says they are. -/
def merged (e : Fin n → Fin m) (f : ∀ i, δ i → ε (e i) → ε (e i)) (v : ∀ i, δ i) (w : ∀ j, ε j) : ∀ j, ε j :=
  (List.finRange n).foldl (fun w i => Function.update w (e i) (f i (v i) (w (e i)))) w

variable {e : Fin n → Fin m} {f : ∀ i, δ i → ε (e i) → ε (e i)} {v : ∀ i, δ i} {w : ∀ j, ε j}

/-- A member the writer does not have stays. -/
theorem foldl_update_of_notMem {j : Fin m} {l : List (Fin n)} (h : ∀ i ∈ l, e i ≠ j) (w : ∀ j, ε j) :
    l.foldl (fun w i => Function.update w (e i) (f i (v i) (w (e i)))) w j = w j := by
  induction l generalizing w with
  | nil => rfl
  | cons i l ih =>
    rw [List.foldl_cons, ih fun i' hi' => h i' (List.mem_cons_of_mem _ hi')]
    exact Function.update_of_ne (h i List.mem_cons_self).symm _ _

/-- A member it has is read once. -/
theorem foldl_update_of_mem (he : Function.Injective e) {i : Fin n} {l : List (Fin n)} (hnodup : l.Nodup) (hi : i ∈ l)
    (w : ∀ j, ε j) :
    l.foldl (fun w i => Function.update w (e i) (f i (v i) (w (e i)))) w (e i) = f i (v i) (w (e i)) := by
  induction l generalizing w with
  | nil => cases hi
  | cons k l ih =>
    obtain ⟨hk, hnodup⟩ := List.nodup_cons.mp hnodup
    rw [List.foldl_cons]
    rcases List.mem_cons.mp hi with rfl | hmem
    · have hne : ∀ i' ∈ l, e i' ≠ e i := fun i' hi' heq => hk (he heq ▸ hi')
      rw [foldl_update_of_notMem hne, Function.update_self]
    · have hne : e i ≠ e k := fun heq => hk (he heq ▸ hmem)
      rw [ih hnodup hmem, Function.update_of_ne hne]

/-- A member that is not among those read keeps its value. -/
theorem merged_of_ne {j : Fin m} (h : ∀ i, e i ≠ j) : merged e f v w j = w j := foldl_update_of_notMem (fun i _ => h i) w

theorem merged_apply (he : Function.Injective e) (i : Fin n) : merged e f v w (e i) = f i (v i) (w (e i)) :=
  foldl_update_of_mem he (List.nodup_finRange n) (List.mem_finRange i) w

/-- Members in the same places. -/
theorem merged_id {ε : Fin n → Type} {f : ∀ i, δ i → ε i → ε i} {w : ∀ i, ε i} :
    merged (e := fun i => i) f v w = fun i => f i (v i) (w i) :=
  funext fun i => merged_apply (e := fun i => i) (fun _ _ h => h) i

/-- The members are read in the order they were written in. -/
theorem takes_merged {x : Fin n → Parse MemoryInputStream (∀ j, ε j) Unit} {word : Fin n → List UInt8}
    (h : ∀ i w, ParseTakes (x i) (word i) () w (Function.update w (e i) (f i (v i) (w (e i))))) (w : ∀ j, ε j) :
    ParseTakes (mpForDots x) ((List.finRange n).flatMap word) () w (merged e f v w) :=
  Action.takes_forList (fun pre => pre.foldl (fun w i => Function.update w (e i) (f i (v i) (w (e i)))) w)
    fun pre i post _ => by
      rw [List.foldl_concat]
      exact h i _

end Members

/-! ### Arrays and tuples -/

section Tuples
variable {n : Nat} {δ ε : Fin n → Type} {c : ∀ i, Encoder (δ i)} {d : ∀ i, Decoder (ε i)} {f : ∀ i, δ i → ε i → ε i}

theorem reads_onMember (h : ∀ i, ReadsAs (c i) (d i) (f i)) {v : ∀ i, δ i} (hv : ∀ i, (c i).IsValue (v i)) (i : Fin n)
    (w : ∀ i, ε i) : ParseTakes (onMember i ((d i).decode MemoryInputStream)) ((c i).bytes (v i)) () w
      (Function.update w i (f i (v i) (w i))) :=
  Action.TakesAhead.within (h i (v i) (hv i) (w i))

theorem reads_members (h : ∀ i, ReadsAs (c i) (d i) (f i)) {v : ∀ i, δ i} (hv : ∀ i, (c i).IsValue (v i)) (w : ∀ i, ε i) :
    ParseTakes (mpForDots fun i => onMember i ((d i).decode MemoryInputStream)) (memberBytes c v) () w
      fun i => f i (v i) (w i) := by
  have htakes := takes_merged (e := fun i => i) (reads_onMember h hv) w
  rwa [merged_id] at htakes

theorem reads_tuple (hn : n < wordLimit) (hc : ∀ i, (c i).Exact) (h : ∀ i, ReadsAs (c i) (d i) (f i)) :
    ReadsAs (tupleEncoder c) (tupleDecoder d) fun v w i => f i (v i) (w i) := by
  intro v hv w
  rw [show (tupleEncoder c).bytes v = _ from (tupleEncoder_puts hn hc hv).bytes_eq]
  exact ((takes_expectArrayHead hn).onFst w).bind (reads_members h hv w)

theorem reads_packableTuple (hn : n < int32Max) (version : BitVec 32) (hc : ∀ i, (c i).Exact)
    (h : ∀ i, ReadsAs (c i) (d i) (f i)) :
    ReadsAs (packableTupleEncoder version c) (packableTupleDecoder version d) fun v w i => f i (v i) (w i) := by
  intro v hv w
  have hmax : int32Max < wordLimit := by decide
  have hputs := packableTupleEncoder_puts (by omega) version hc hv
  rw [show (packableTupleEncoder version c).bytes v = _ from hputs.bytes_eq]
  have hlen : n ≤ (memberBytes c v).length := (wellFormed_members fun i => (hc i (v i) (hv i)).2).items_length
  refine ((takes_decodeTupleHead hn version).onFst w).bindAhead ?_ hlen
  exact .ite_neg (fun h => h.2 rfl) (.ite_neg (fun h => h rfl) (reads_members h hv w))

end Tuples

theorem reads_array {c : Encoder α} {d : Decoder β} {f : α → β → β} (n : Nat) (hc : c.Exact) (h : ReadsAs c d f) :
    ReadsAs (arrayEncoder n c) (arrayDecoder n d) fun v w i => f (v i) (w i) := by
  intro v hv w
  have hbytes : (arrayEncoder n c).bytes v = Detail.varUintHead .array n ++
      (List.finRange n).flatMap fun i => c.bytes (v i) := by
    rw [show (arrayEncoder n c).bytes v = _ from (puts_rangeEncoder (.inr rfl) hc hv).bytes_eq, List.length_ofFn,
      List.ofFn_eq_map, List.flatMap_map]
  have hvalue : ∀ i, c.IsValue (v i) := fun i => hv.2 _ (List.mem_ofFn.mpr ⟨i, rfl⟩)
  have hn : n < wordLimit := by
    have hlen := hv.1
    rwa [List.length_ofFn] at hlen
  have hloop : ParseTakes (Action.forRange (Detail.decodeAt d) 0 (List.finRange n).length)
      ((List.finRange n).flatMap fun i => c.bytes (v i)) () w (merged (e := fun i => i) (fun _ => f) v w) :=
    Action.takes_forRange (fun pre => pre.foldl (fun w i => Function.update w i (f (v i) (w i))) w) fun pre i post hsplit => by
      rw [List.foldl_concat, ← finRange_split hsplit]
      unfold Detail.decodeAt
      rw [dif_pos i.isLt]
      exact Action.TakesAhead.within (h (v i) (hvalue i) _)
  rw [merged_id, List.length_finRange] at hloop
  have hlen := (wellFormed_members fun i => (hc (v i) (hvalue i)).2).items_length
  rw [hbytes]
  exact (takes_parseArrayLike (m := 4) (.inl rfl) hn (Nat.le_refl n) (by rwa [if_neg (by decide), Nat.one_mul])
    hloop).after (.ite_neg (fun h => h rfl) (Action.takes_pure _))

/-! ### Objects -/

section Objects
variable {n m : Nat} {δ : Fin n → Type} {ε : Fin m → Type} {D : ObjectDef ι n} {D' : ObjectDef ι m} {key : Encoder ι}
  {c : ∀ i, Encoder (δ i)} {d : ∀ j, Decoder (ε j)} {e : Fin n → Fin m} {f : ∀ i, δ i → ε (e i) → ε (e i)}
  {property : Parse MemoryInputStream (∀ j, ε j) Nat} {word : Fin n → List UInt8} {v : ∀ i, δ i}

/-- Each entry marks the reader's property it was read into. -/
theorem reads_foundProperties
    (h : ∀ i w, ParseTakes property (word i) (e i).val w (Function.update w (e i) (f i (v i) (w (e i)))))
    (l : List (Fin n)) (found : List (BitVec 64)) (w : ∀ j, ε j) :
    ParseTakes (decodeFoundProperties property l.length found) (l.flatMap word)
      (l.foldl (fun b i => Detail.markProperty b (e i) true) found) w
      (l.foldl (fun w i => Function.update w (e i) (f i (v i) (w (e i)))) w) := by
  induction l generalizing found w with
  | nil => exact Action.takes_pure found
  | cons i l ih => exact (h i w).bind (ih _ _)

/-- The reader requires no property the writer does not have. -/
theorem reads_objectProperties (he : Function.Injective e) (hrequired : ∀ j, D'.required j = true → ∃ i, e i = j)
    (h : ∀ i w, ParseTakes property (word i) (e i).val w (Function.update w (e i) (f i (v i) (w (e i)))))
    (w : ∀ j, ε j) :
    ParseTakes (decodeObjectProperties D' property n) ((List.finRange n).flatMap word) () w (merged e f v w) := by
  unfold decodeObjectProperties
  by_cases hoptional : D'.hasOptionalProperties
  · have hfound := reads_foundProperties h (List.finRange n) (Detail.noProperties m) w
    rw [List.length_finRange, ← List.foldl_map (f := e)
      (g := fun (b : List (BitVec 64)) (j : Fin m) => Detail.markProperty b j true)] at hfound
    have hcomplete := (Detail.completeBuckets_marked_iff D' ((List.finRange n).map e)).mpr fun j hj => by
      obtain ⟨i, rfl⟩ := hrequired j hj
      exact List.mem_map_of_mem (List.mem_finRange i)
    exact .ite_pos hoptional (hfound.after (.ite_neg (not_not.mpr hcomplete) (Action.takes_pure ())))
  · -- all of the reader's properties are required, so that it has no others
    have hall : ∀ j, ∃ i, e i = j := by
      rw [ObjectDef.hasOptionalProperties, Bool.not_eq_true, Bool.not_eq_false', List.all_eq_true] at hoptional
      exact fun j => hrequired j (hoptional j (List.mem_finRange j))
    have hmn : m = n := by
      have hcard := Fintype.card_of_bijective ⟨he, hall⟩
      rw [Fintype.card_fin, Fintype.card_fin] at hcard
      exact hcard.symm
    have hloop : ParseTakes (Action.forRange (fun _ => do let _ ← property) 0 (List.finRange n).length)
        ((List.finRange n).flatMap word) () w (merged e f v w) :=
      Action.takes_forRange (fun pre => pre.foldl (fun w i => Function.update w (e i) (f i (v i) (w (e i)))) w)
        fun pre i _ _ => by
          rw [List.foldl_concat]
          exact (h i _).after (Action.takes_pure ())
    rw [List.length_finRange] at hloop
    exact .ite_neg hoptional (.ite_neg (not_not.mpr hmn) hloop)

/-- An object whose properties are among the reader's, each under the same id. -/
theorem reads_decodeObject (hn : numEntries n D.version < int32Max / 2) (hkey : key.Exact)
    (hids : ∀ i, key.IsValue (D.ids i)) (hc : ∀ i, (c i).Exact) (he : Function.Injective e)
    (hsame : ∀ i, D'.ids (e i) = D.ids i) (hversion : D'.version = D.version)
    (hrequired : ∀ j, D'.required j = true → ∃ i, e i = j) (h : ∀ i, ReadsAs (c i) (d (e i)) (f i))
    {readId : Input MemoryInputStream ι} {lookup : ι → Option Nat}
    (hread : ∀ i, InputTakes readId (key.bytes (D.ids i)) (D.ids i)) (hlookup : ∀ j, lookup (D'.ids j) = some j.val)
    (hv : ∀ i, (c i).IsValue (v i)) (w : ∀ j, ε j) :
    ParseTakes (decodeObject D' do
        let id ← Action.onFst readId
        Detail.decodePropByIndex d (lookup id)) ((objectEncoder D key c).bytes v) () w (merged e f v w) := by
  have hmax : int32Max / 2 < wordLimit := by decide
  have hle : n + 1 < wordLimit := by
    rw [numEntries] at hn
    split at hn <;> omega
  rw [show (objectEncoder D key c).bytes v = _ from (objectEncoder_puts hle hkey hids hc hv).bytes_eq]
  have hentry : ∀ i w, ParseTakes (do
      let id ← Action.onFst readId
      Detail.decodePropByIndex d (lookup id)) (key.bytes (D.ids i) ++ (c i).bytes (v i)) (e i).val w
      (Function.update w (e i) (f i (v i) (w (e i)))) := by
    refine fun i w => ((hread i).onFst w).bind ?_
    rw [← hsame i, hlookup, Detail.decodePropByIndex_of_lt d (e i).isLt]
    exact Action.TakesAhead.after (Action.TakesAhead.within (h i (v i) (hv i) (w (e i)))) (Action.takes_pure _)
  have hlen : 2 * n ≤ ((List.finRange n).flatMap fun i => key.bytes (D.ids i) ++ (c i).bytes (v i)).length :=
    (wellFormed_properties (fun i => (hkey (D.ids i) (hids i)).2) fun i => (hc i (v i) (hv i)).2).items_length
  rw [← hversion] at hn ⊢
  refine ((takes_decodeObjectHead hn).onFst w).bindAhead ?_ hlen
  exact .ite_neg (fun h => h.2 rfl) (reads_objectProperties he hrequired hentry w)

end Objects

/-! ### Later types -/

/-- How the encoder of a type and the decoder of a later one belong together, and what the decoder makes of a value and
of what was in its place. -/
inductive Evolves : {α β : Type} → Encoder α → Decoder β → (α → β → β) → Prop where
  | same {α : Type} {c : Encoder α} {d : Decoder α} {arrays : Prop} : LibraryCodec LibraryLeaf arrays c d →
      Evolves c d fun v _ => v
  | integer {t u : IntType} : t.EncodableInt → u.EncodableInt → (∀ n, t.Represents n → u.Represents n) →
      Evolves (integerEncoder t) (integerDecoder u) fun v _ => t.convert u v
  | float : Evolves floatEncoder doubleDecoder fun v _ => BitVec.ofNat 64 (Detail.widen v.toNat)
  | fixedU8string (capacity : Nat) : Evolves (fixedU8stringEncoder capacity) stringDecoder fun v _ => v.view
  | byteArray (n : Nat) : Evolves (byteArrayEncoder n) blobDecoder fun v _ => v.val
  | via {α α' β : Type} {c : Encoder α} {d : Decoder β} {f : α → β → β} (g : α' → α) : Evolves c d f →
      Evolves (c.via g) d fun v => f (g v)
  | cast {α β β' : Type} {c : Encoder α} {d : Decoder β} {f : α → β → β} (g : β → β') : Evolves c d f →
      Evolves c (d.via g) fun v _ => g (f v d.init)
  | vector {α β : Type} {c : Encoder α} {d : Decoder β} {f : α → β → β} : Evolves c d f →
      Evolves (rangeEncoder 64 c) (vectorDecoder d) fun vs _ => vs.map fun v => f v d.init
  | indefiniteRange {α β : Type} {c : Encoder α} {d : Decoder β} {f : α → β → β} : Evolves c d f →
      Evolves (indefiniteRangeEncoder c) (vectorDecoder d) fun vs _ => vs.map fun v => f v d.init
  | unordered {κ β : Type} {k : Encoder κ} {d : Decoder β} {f : κ → β → β} (lt : κ → κ → Bool) : Evolves k d f →
      Evolves (setEncoder lt k) (vectorDecoder d) fun vs _ => vs.map fun v => f v d.init
  | set {κ κ' : Type} {k : Encoder κ} {kd : Decoder κ'} {g : κ → κ' → κ'} {lt : κ → κ → Bool} {lt' : κ' → κ' → Bool} :
      Evolves k kd g → (∀ a b, lt a b → lt' (g a kd.init) (g b kd.init)) →
      Evolves (setEncoder lt k) (setDecoder lt' kd) fun vs _ => vs.map fun v => g v kd.init
  | map {κ κ' ν ν' : Type} {k : Encoder κ} {kd : Decoder κ'} {g : κ → κ' → κ'} {c : Encoder ν} {d : Decoder ν'}
      {f : ν → ν' → ν'} {lt : κ → κ → Bool} {lt' : κ' → κ' → Bool} : Evolves k kd g → Evolves c d f →
      (∀ a b, lt a b → lt' (g a kd.init) (g b kd.init)) →
      Evolves (orderedMapEncoder lt k c) (mapDecoder lt' kd d)
        fun vs _ => vs.map fun v => (g v.1 kd.init, f v.2 d.init)
  | array {α β : Type} {c : Encoder α} {d : Decoder β} {f : α → β → β} (n : Nat) : Evolves c d f →
      Evolves (arrayEncoder n c) (arrayDecoder n d) fun v w i => f (v i) (w i)
  | tuple {n : Nat} {δ ε : Fin n → Type} {c : ∀ i, Encoder (δ i)} {d : ∀ i, Decoder (ε i)} {f : ∀ i, δ i → ε i → ε i} :
      n < wordLimit → (∀ i, Evolves (c i) (d i) (f i)) →
      Evolves (tupleEncoder c) (tupleDecoder d) fun v w i => f i (v i) (w i)
  | packableTuple {n : Nat} {δ ε : Fin n → Type} {c : ∀ i, Encoder (δ i)} {d : ∀ i, Decoder (ε i)}
      {f : ∀ i, δ i → ε i → ε i} (version : BitVec 32) : n < int32Max → (∀ i, Evolves (c i) (d i) (f i)) →
      Evolves (packableTupleEncoder version c) (packableTupleDecoder version d) fun v w i => f i (v i) (w i)
  | object {n m : Nat} {ι : Type} [DecidableEq ι] {δ : Fin n → Type} {ε : Fin m → Type} {lt : ι → ι → Bool}
      {D : ObjectDef ι n} {D' : ObjectDef ι m} {key : Encoder ι} {kd : Decoder ι} {arrays : Prop}
      {c : ∀ i, Encoder (δ i)} {d : ∀ j, Decoder (ε j)} {e : Fin n → Fin m} {f : ∀ i, δ i → ε (e i) → ε (e i)} :
      numEntries n D.version < 2 ^ 30 - 1 → (∀ a, lt a a = false) → (∀ i j, i < j → lt (D'.ids i) (D'.ids j)) →
      LibraryCodec LibraryLeaf arrays key kd → (∀ i, key.IsValue (D.ids i)) → Function.Injective e →
      (∀ i, D'.ids (e i) = D.ids i) → D'.version = D.version → (∀ j, D'.required j = true → ∃ i, e i = j) →
      (∀ i, Evolves (c i) (d (e i)) (f i)) →
      Evolves (objectEncoder D key c) (objectDecoder lt D' kd d) (merged e f)
  | namedObject {n m capacity : Nat} {δ : Fin n → Type} {ε : Fin m → Type} {lt : FixedU8string → FixedU8string → Bool}
      {D : ObjectDef FixedU8string n} {D' : ObjectDef FixedU8string m} {names : Fin n → List UInt8}
      {c : ∀ i, Encoder (δ i)} {d : ∀ j, Decoder (ε j)} {e : Fin n → Fin m} {f : ∀ i, δ i → ε (e i) → ε (e i)} :
      numEntries n D.version < 2 ^ 30 - 1 → (∀ a, lt a a = false) → (∀ i j, i < j → lt (D'.ids i) (D'.ids j)) →
      capacity < 2 ^ 32 → (∀ i, (names i).length ≤ capacity ∧ D.ids i = .ofUnits capacity (names i)) →
      Function.Injective e → (∀ i, D'.ids (e i) = D.ids i) → D'.version = D.version →
      (∀ j, D'.required j = true → ∃ i, e i = j) → (∀ i, Evolves (c i) (d (e i)) (f i)) →
      Evolves (objectEncoder D (fixedU8stringEncoder capacity) c) (objectDecoder lt D' (fixedU8stringDecoder capacity) d)
        (merged e f)
  | unsignedObject {n m w : Nat} {δ : Fin n → Type} {ε : Fin m → Type} {D : ObjectDef (BitVec w) n}
      {D' : ObjectDef (BitVec w) m} {c : ∀ i, Encoder (δ i)} {d : ∀ j, Decoder (ε j)} {e : Fin n → Fin m}
      {f : ∀ i, δ i → ε (e i) → ε (e i)} :
      numEntries n D.version < 2 ^ 30 - 1 → IntType.EncodableInt ⟨w, false⟩ →
      (∀ i j, i < j → D'.ids i < D'.ids j) → Function.Injective e → (∀ i, D'.ids (e i) = D.ids i) →
      D'.version = D.version → (∀ j, D'.required j = true → ∃ i, e i = j) → (∀ i, Evolves (c i) (d (e i)) (f i)) →
      Evolves (objectEncoder D (integerEncoder ⟨w, false⟩) c) (unsignedObjectDecoder D' d) (merged e f)

section Evolved
variable {c : Encoder α} {d : Decoder β} {f : α → β → β}

theorem Evolves.exact (h : Evolves c d f) : c.Exact := by
  induction h with
  | same h => exact h.exact
  | integer ht _ _ => exact integerEncoder_exact ht
  | float => exact floatEncoder_exact
  | fixedU8string capacity => exact fixedU8stringEncoder_exact capacity
  | byteArray n => exact byteArrayEncoder_exact n
  | via g _ ih => exact Encoder.Exact.via ih g
  | cast _ _ ih => exact ih
  | vector _ ih => exact rangeEncoder_exact (.inr rfl) ih
  | indefiniteRange _ ih => exact indefiniteRangeEncoder_exact ih
  | unordered lt _ ih => exact setEncoder_exact lt ih
  | set _ _ ih => exact setEncoder_exact _ ih
  | map _ _ _ ihk ihc => exact orderedMapEncoder_exact _ ihk ihc
  | array n _ ih => exact Encoder.Exact.via (rangeEncoder_exact (.inr rfl) ih) _
  | tuple hn _ ih => exact tupleEncoder_exact hn ih
  | packableTuple version hn _ ih =>
    have hmax : int32Max < wordLimit := by decide
    exact packableTupleEncoder_exact (by omega) version ih
  | object hn _ _ hkey hids _ _ _ _ _ ih =>
    exact objectEncoder_exact (wordLimit_of_entries hn) hkey.exact hids ih
  | namedObject hn _ _ hcapacity hnames _ _ _ _ _ ih =>
    exact objectEncoder_exact (wordLimit_of_entries hn) (fixedU8stringEncoder_exact _) (isValue_name hcapacity hnames) ih
  | unsignedObject hn ht _ _ _ _ _ _ ih =>
    exact objectEncoder_exact (wordLimit_of_entries hn) (integerEncoder_exact ht) (fun _ => trivial) ih

theorem Evolves.reads (h : Evolves c d f) : ReadsAs c d f := by
  induction h with
  | same h => exact h.restores.reads
  | integer ht hu hall => exact reads_integer ht hu hall
  | float => exact reads_float
  | fixedU8string capacity => exact reads_fixedU8string capacity
  | byteArray n => exact reads_byteArray n
  | via g _ ih => exact ih.of_bytes fun v hv => ⟨hv, rfl⟩
  | cast g _ ih => exact ih.cast g
  | vector hc ih => exact reads_vector hc.exact ih
  | indefiniteRange hc ih => exact reads_indefiniteRange hc.exact ih
  | unordered lt hk ih => exact (reads_vector hk.exact ih).of_bytes (g := id) fun vs hvs => ⟨hvs.1, rfl⟩
  | set hk hmono ih => exact reads_set hk.exact ih hmono
  | map hk hc hmono ihk ihc => exact reads_map hk.exact hc.exact ihk ihc hmono
  | array n hc ih => exact reads_array n hc.exact ih
  | tuple hn hc ih => exact reads_tuple hn (fun i => (hc i).exact) ih
  | packableTuple version hn hc ih => exact reads_packableTuple hn version (fun i => (hc i).exact) ih
  | object hn hirr hasc hkey hids he hsame hversion hrequired hc ih =>
    have hexact := hkey.exact
    exact fun v hv w => reads_decodeObject hn hexact hids (fun i => (hc i).exact) he hsame hversion hrequired ih
      (fun i => hkey.restores.asValue (hids i)) (propertyIdLookup_ofFn hirr hasc) hv w
  | namedObject hn hirr hasc hcapacity hnames he hsame hversion hrequired hc ih =>
    intro v hv w
    refine reads_decodeObject hn (fixedU8stringEncoder_exact _) (isValue_name hcapacity hnames) (fun i => (hc i).exact)
      he hsame hversion hrequired ih (fun i => ?_) (propertyIdLookup_ofFn hirr hasc) hv w
    rw [(hnames i).2]
    exact takes_fixedU8string hcapacity (hnames i).1
  | unsignedObject hn ht hasc he hsame hversion hrequired hc ih =>
    exact fun v hv w => reads_decodeObject hn (integerEncoder_exact ht) (fun _ => trivial) (fun i => (hc i).exact) he
      hsame hversion hrequired ih (fun _ => (restores_integer ht).asValue trivial) (unsignedIdLookup_ofFn hasc) hv w

variable {σ : Type} [InputStream σ] {s : InputBuffer σ} {c' : Encoder β} {arrays : Prop} {v : α} {w : β} {rest : List UInt8}

/-- What an older type's encoder wrote is decoded from any input: to its value, as far as it goes, and for the rest to
what was in its place. It is a value of the later type again. -/
theorem decode_evolved (h : Evolves c d f) (hd : LibraryCodec FixedLeaf arrays c' d) (C : InputContract σ)
    (hs : C.Valid s) (hv : c.IsValue v) (hunread : C.unread s = c.bytes v ++ rest) (hw : c'.IsValue w) :
    ∃ t, d.decode σ (s, w) = (.ok (), (t, f v w)) ∧ C.Valid t ∧ C.unread t = rest ∧ c'.IsValue (f v w) := by
  have hindependent : d.Independent := hd.independent FixedLeaf.independent
  obtain ⟨r, rest', w', hmemory, -, t, hrun, hvt, hut⟩ := hindependent.memory C hs w
  have hlen := C.inputSize_lt hs
  rw [hunread] at hmemory hlen
  cases hmemory.symm.trans (h.reads v hv w rest (Nat.zero_le _) hlen)
  exact ⟨t, hrun, hvt, hut, (hd.kept C hs hw hrun).2.2⟩

end Evolved

/-- The ids 1 and 2. -/
def twoIds (required : Fin 2 → Bool) : ObjectDef (BitVec 8) 2 := ⟨nullDefVersion, ![1, 2], required⟩

/-- An object with a number of eight bits, read as one with a number of 16 bits and one that may be missing. -/
theorem decode_evolved_object :
    ∃ t, (unsignedObjectDecoder (twoIds fun j => j = 0) fun _ => integerDecoder ⟨16, false⟩).decode MemoryInputStream
        (memoryInput [0xa1, 0x01, 0x18, 0xff], fun _ => 7) = (.ok (), (t, ![255, 7])) ∧
      MemoryInputStream.contract.unread t = [] := by
  have hword : IntType.EncodableInt ⟨8, false⟩ := .inl rfl
  have hwide : IntType.EncodableInt ⟨16, false⟩ := .inr (.inl rfl)
  have hall : ∀ n, IntType.Represents ⟨8, false⟩ n → IntType.Represents ⟨16, false⟩ n :=
    fun n hn => ⟨hn.1, lt_trans hn.2 (by decide)⟩
  have hevolves : Evolves (objectEncoder (⟨nullDefVersion, fun _ => 1, fun _ => true⟩ : ObjectDef (BitVec 8) 1)
      (integerEncoder ⟨8, false⟩) fun _ => integerEncoder ⟨8, false⟩)
      (unsignedObjectDecoder (twoIds fun j => j = 0) fun _ => integerDecoder ⟨16, false⟩) _ :=
    .unsignedObject (e := fun _ => 0) (by decide) hword (by decide) (fun _ _ _ => Subsingleton.elim _ _) (fun _ => rfl) rfl
      (fun j hj => ⟨0, (of_decide_eq_true hj).symm⟩) fun _ => .integer hword hwide hall
  have hcodec : LibraryCodec FixedLeaf False (objectEncoder (twoIds fun j => j = 0) (integerEncoder ⟨8, false⟩)
      fun _ => integerEncoder ⟨16, false⟩) (unsignedObjectDecoder (twoIds fun j => j = 0) fun _ => integerDecoder ⟨16, false⟩) :=
    .unsignedObject (by decide) hword (by decide) fun _ => .leaf (.leaf (.integer hwide))
  obtain ⟨t, hrun, -, hleft, -⟩ := decode_evolved hevolves hcodec MemoryInputStream.contract
    (MemoryInputStream.valid_memory (b := [0xa1, 0x01, 0x18, 0xff]) (by decide)) (v := fun _ => 255) (fun _ => trivial)
    (show _ = _ ++ [] from rfl) (w := fun _ => 7) fun _ => trivial
  have hvalue : merged (fun _ => 0) (fun _ v _ => IntType.convert ⟨8, false⟩ ⟨16, false⟩ v) (fun _ : Fin 1 => 255)
      (fun _ : Fin 2 => 7) = ![255, 7] := by
    decide
  exact ⟨t, hvalue ▸ hrun, hleft⟩

end DeepPack
