import DeepPack.Library.Triples
import DeepPack.Items.Buffering
import DeepPack.Items.HeadContract

/-! What the parsers keep, whatever they come to.

On an honest input a parser only moves on, and it ends: with a result, or with an
error code. So the input is ahead of where it was, all loops have rounds enough, and
a condition on the destination is kept if the destination's own operations keep it. -/
namespace DeepPack
open Library InputBuffer

variable {σ δ α : Type} [InputStream σ]

/-- An honest input that gives the end of these bytes. -/
def Ahead (C : InputContract σ) (b : List UInt8) (s : InputBuffer σ) : Prop := C.Valid s ∧ C.unread s <:+ b

/-- The same, after a failure of a kind. -/
def Broken (G : Fault → Prop) (C : InputContract σ) (b : List UInt8) (e : Fault) (s : InputBuffer σ) : Prop :=
  G e ∧ Ahead C b s

/-- The failures of the functions themselves. -/
def ReturnsErrors (G : Fault → Prop) : Prop := ∀ e, G (.errc e)

/-- The input parser moves on. -/
abbrev InputKeeps (G : Fault → Prop) (C : InputContract σ) (b : List UInt8) (Q : α → Prop) (x : Input σ α) : Prop :=
  Action.Triple (Ahead C b) x (fun a s => Q a ∧ Ahead C b s) (Broken G C b)

/-- The parser moves on, and takes the destination from `V` to `W`, or to `U` if it fails. -/
abbrev ParseKeeps (G : Fault → Prop) (C : InputContract σ) (b : List UInt8) (V : δ → Prop) (W : α → δ → Prop)
    (U : δ → Prop) (x : Parse σ δ α) : Prop :=
  Action.Triple (Action.Both (Ahead C b) V) x (fun a => Action.Both (Ahead C b) (W a))
    fun e => Action.Both (Broken G C b e) U

variable {G : Fault → Prop} {C : InputContract σ} {b : List UInt8} {V : δ → Prop} {W : α → δ → Prop} {U : δ → Prop}

theorem Ahead.length_le {s : InputBuffer σ} (h : Ahead C b s) : (C.unread s).length ≤ b.length := h.2.length_le

/-! ### Parts -/

theorem keeps_err (hG : ReturnsErrors G) (e : Errc) {Q : α → Prop} : InputKeeps G C b Q (err e) :=
  Action.triple_fail fun _ hs => ⟨hG e, hs⟩

theorem keeps_parseErr (hG : ReturnsErrors G) (hVU : ∀ d, V d → U d) (e : Errc) : ParseKeeps G C b V W U (err e) :=
  Action.triple_fail fun _ hs => ⟨⟨hG e, hs.1⟩, hVU _ hs.2⟩

theorem keeps_pure (a : α) (h : ∀ d, V d → W a d) : ParseKeeps G C b V W U (pure a) :=
  Action.triple_pure fun _ hs => ⟨hs.1, h _ hs.2⟩

theorem keeps_onFst {Q : α → Prop} {x : Input σ α} (h : InputKeeps G C b Q x) (hVU : ∀ d, V d → U d) :
    ParseKeeps G C b V (fun a d => Q a ∧ V d) U (Action.onFst x) :=
  h.onFst.mono (fun _ hs => hs) (fun _ _ hs => ⟨hs.1.2, hs.1.1, hs.2⟩) fun _ _ hs => ⟨hs.1, hVU _ hs.2⟩

/-- An input parser before another. -/
theorem keeps_onFst_bind {β : Type} {Q : α → Prop} {x : Input σ α} {f : α → Parse σ δ β} {W : β → δ → Prop}
    (h : InputKeeps G C b Q x) (hVU : ∀ d, V d → U d) (hf : ∀ a, Q a → ParseKeeps G C b V W U (f a)) :
    ParseKeeps G C b V W U (Action.onFst x >>= f) :=
  (keeps_onFst h hVU).bind fun a p hp => hf a hp.2.1 p ⟨hp.1, hp.2.2⟩

theorem keeps_bind {β : Type} {Q : α → Prop} {R : β → Prop} {x : Input σ α} {f : α → Input σ β}
    (h : InputKeeps G C b Q x) (hf : ∀ a, Q a → InputKeeps G C b R (f a)) : InputKeeps G C b R (x >>= f) :=
  h.bind fun a s hs => hf a hs.1 s hs.2

/-- What is done to the destination alone. -/
theorem keeps_onSnd {F : Fault → δ → Prop} {x : Action Fault δ α} (h : Action.Triple V x W F)
    (hF : ∀ e d, F e d → G e ∧ U d) : ParseKeeps G C b V W U (Action.onSnd x) :=
  h.onSnd.mono (fun _ hs => hs) (fun _ _ hs => hs) fun e s hs => ⟨⟨(hF e s.2 hs.2).1, hs.1⟩, (hF e s.2 hs.2).2⟩

theorem keeps_modify {f : δ → δ} {W : Unit → δ → Prop} (h : ∀ d, V d → W () (f d)) :
    ParseKeeps G C b V W U (Action.onSnd (Action.modify f)) :=
  keeps_onSnd (F := fun _ _ => False) (Action.triple_modify h) fun _ _ => False.elim

theorem keeps_assign (v : δ) {W : Unit → δ → Prop} (h : W () v) : ParseKeeps G C b V W U (assign v) :=
  keeps_modify fun _ _ => h

/-! ### The buffer and heads -/

/-- What an input is, beside being the end of `b`, it may be the end of itself. -/
theorem Ahead.self {s : InputBuffer σ} (h : Ahead C b s) : Ahead C (C.unread s) s := ⟨h.1, List.suffix_refl _⟩

theorem Ahead.trans {b' : List UInt8} {s : InputBuffer σ} (h : Ahead C b' s) (hb : b' <:+ b) : Ahead C b s :=
  ⟨h.1, h.2.trans hb⟩

/-- What an honest input says of a parser, as a triple. -/
theorem keeps_of_does {Q : α → Prop} {x : Input σ α} (r : List UInt8 → Except Fault α) (rest : List UInt8 → List UInt8)
    (hx : ∀ s, C.Valid s → C.Does x s (r (C.unread s)) (rest (C.unread s))) (hrest : ∀ u, rest u <:+ u)
    (hok : ∀ u a, u.length < wordLimit → r u = .ok a → Q a) (herr : ∀ u e, r u = .error e → G e) :
    InputKeeps G C b Q x := by
  intro s hs
  obtain ⟨t, ht, hvt, hut⟩ := hx s hs.1
  have hahead : Ahead C b t := ⟨hvt, by rw [hut]; exact (hrest _).trans hs.2⟩
  rw [ht]
  refine ⟨fun a _ heq => ?_, fun e _ heq => ?_⟩
  · obtain ⟨hr, rfl⟩ := Prod.mk.inj heq
    exact ⟨hok _ a (C.inputSize_lt hs.1) hr, hahead⟩
  · obtain ⟨hr, rfl⟩ := Prod.mk.inj heq
    exact ⟨herr _ e hr, hahead⟩

theorem restAfter_suffix (discard : Bool) (u : List UInt8) (r : Except Errc ItemHead) :
    Detail.restAfter discard u r <:+ u := by
  rw [Detail.restAfter.eq_def]
  split
  · split
    · exact List.drop_suffix _ _
    · exact List.suffix_refl _
  · exact List.suffix_refl _

theorem keeps_parseItemHead (hG : ReturnsErrors G) : InputKeeps G C b (fun _ => True) parseItemHead := by
  refine keeps_of_does (fun u => (headOf u).mapError .errc) (fun u => Detail.restAfter true u (headOf u))
    (fun _ hs => does_detailParseItemHead hs true) (fun u => restAfter_suffix true u _) (fun _ _ _ _ => trivial)
    fun u e he => ?_
  rcases hh : headOf u with c | h <;> rw [hh] at he <;> cases he
  exact hG c

/-- A head takes a byte at least. -/
theorem keeps_headByte (hG : ReturnsErrors G) :
    Action.Triple (Ahead C b) parseItemHead (fun _ s => b ≠ [] ∧ Ahead C b.tail s) (Broken G C b) := by
  intro s hs
  refine ⟨fun h t hx => ?_, fun e t hx => (keeps_parseItemHead hG).error hs hx⟩
  obtain ⟨t', ht', hvt, hut⟩ := does_detailParseItemHead hs.1 true
  rw [show parseItemHead s = _ from ht'] at hx
  obtain ⟨hr, rfl⟩ := Prod.mk.inj hx
  rcases hh : headOf (C.unread s) with e | h' <;> rw [hh] at hr hut <;> cases hr
  obtain ⟨front, rfl⟩ := hs.2
  obtain ⟨p, rest, hu, hread⟩ := exists_readFrom hh
  obtain ⟨c, p, rfl⟩ : ∃ c q, p = c :: q := List.exists_cons_of_ne_nil fun hnil => by
    have hmem := hread.length_mem
    rw [hnil] at hmem
    exact absurd hmem (by decide)
  rw [hu, Detail.restAfter, if_pos rfl, hread.encodedLength_eq, List.drop_left] at hut
  rw [hu]
  refine ⟨by simp, hvt, ?_⟩
  rw [hut]
  rcases front with _ | ⟨c', front⟩
  · exact List.suffix_append p rest
  · refine ⟨front ++ c :: p, ?_⟩
    rw [List.append_assoc]
    rfl

theorem keeps_inputSizeNow : InputKeeps G C b (fun n => n < wordLimit) inputSizeNow :=
  Action.triple_gets fun _ hs => ⟨by rw [C.inputSize_eq hs.1]; exact C.inputSize_lt hs.1, hs⟩

theorem keeps_bulkRead (hG : ReturnsErrors G) (n : Nat) : InputKeeps G C b (fun bytes => bytes.length = n) (bulkRead n) := by
  refine keeps_of_does (fun u => if n ≤ u.length then .ok (u.take n) else .error (.errc .endOfStream))
    (fun u => if n ≤ u.length then u.drop n else u) (fun _ hs => does_bulkRead hs n) (fun u => ?_)
    (fun u a _ ha => ?_) fun u e he => ?_
  · split
    · exact List.drop_suffix _ _
    · exact List.suffix_refl _
  · split at ha <;> cases ha
    rename_i hn
    exact List.length_take_of_le hn
  · split at he <;> cases he
    exact hG _

/-- Asking for a byte buffers it, if there is one. -/
theorem keeps_requireOne (hG : ReturnsErrors G) :
    Action.Triple (Ahead C b) (requireInput 1) (fun _ s => Ahead C b s ∧ 1 ≤ s.buffer.length) (Broken G C b) := by
  intro s hs
  by_cases hlen : 1 ≤ (C.unread s).length
  · obtain ⟨t, ht, hvt, hut, hbt⟩ := C.require hs.1 (by decide) hlen
    rw [ht]
    refine ⟨fun _ _ heq => ?_, nofun⟩
    cases heq
    exact ⟨⟨hvt, hut ▸ hs.2⟩, hbt⟩
  · obtain ⟨t, ht, hvt, hut⟩ := InputContract.require_short hs.1 (Nat.lt_of_not_le hlen)
    rw [ht]
    refine ⟨nofun, fun _ _ heq => ?_⟩
    cases heq
    exact ⟨hG _, hvt, hut ▸ hs.2⟩

theorem keeps_dataAt_zero :
    Action.Triple (fun s => Ahead C b s ∧ 1 ≤ s.buffer.length) (dataAt 0)
      (fun _ s => Ahead C b s ∧ 1 ≤ s.buffer.length) (Broken G C b) := by
  intro s hs
  have hlen := InputContract.buffer_length_le hs.1.1
  obtain ⟨c, hc⟩ : ∃ c, (C.unread s)[0]? = some c := ⟨_, List.getElem?_eq_getElem (by omega)⟩
  rw [InputContract.dataAt_eq hs.1.1 hs.2 hc]
  refine ⟨fun _ _ heq => ?_, nofun⟩
  cases heq
  exact hs

theorem keeps_discardOne :
    Action.Triple (fun s => Ahead C b s ∧ 1 ≤ s.buffer.length) (discardBuffered 1)
      (fun _ => Ahead C b) (Broken G C b) := by
  intro s hs
  obtain ⟨t, ht, hvt, hut⟩ := C.discard hs.1.1 hs.2
  rw [ht]
  refine ⟨fun _ _ heq => ?_, nofun⟩
  cases heq
  exact ⟨hvt, by rw [hut]; exact (List.drop_suffix _ _).trans hs.1.2⟩

theorem keeps_peekByte (hG : ReturnsErrors G) :
    Action.Triple (Ahead C b) peekByte (fun _ s => Ahead C b s ∧ 1 ≤ s.buffer.length) (Broken G C b) :=
  (keeps_requireOne hG).bind fun _ => keeps_dataAt_zero

theorem keeps_expectItemHead (hG : ReturnsErrors G) (type : TypeCode) (value : Nat) :
    InputKeeps G C b (fun _ => True) (expectItemHead type value) := by
  refine keeps_bind (keeps_parseItemHead hG) fun head _ => .ite (fun _ => keeps_err hG _) fun _ => ?_
  have hdone : InputKeeps G C b (fun _ => True) (pure ()) := Action.triple_pure fun _ hs => ⟨trivial, hs⟩
  refine .ite (fun _ => .ite (fun _ => ?_) fun _ => keeps_err hG _) fun _ => ?_
  · exact .ite (fun _ => hdone) fun _ => keeps_err hG _
  · exact .ite (fun _ => keeps_err hG _) fun _ => hdone

/-! ### Scalars -/

theorem keeps_parseUnsignedInteger (hG : ReturnsErrors G) (t : IntType) (limit : Nat) :
    ParseKeeps G C b (fun _ => True) (fun _ _ => True) (fun _ => True) (parseUnsignedInteger t limit) :=
  keeps_onFst_bind (keeps_parseItemHead hG) (fun _ h => h) fun _ _ =>
    .ite (fun _ => keeps_parseErr hG (fun _ h => h) _) fun _ =>
      .ite (fun _ => keeps_parseErr hG (fun _ h => h) _) fun _ => keeps_assign _ trivial

theorem keeps_parseInteger (hG : ReturnsErrors G) (t : IntType) :
    ParseKeeps G C b (fun _ => True) (fun _ _ => True) (fun _ => True) (parseInteger t) := by
  refine .ite (fun _ => ?_) fun _ => keeps_parseUnsignedInteger hG t _
  exact keeps_onFst_bind (keeps_parseItemHead hG) (fun _ h => h) fun _ _ =>
    .ite (fun _ => keeps_parseErr hG (fun _ h => h) _) fun _ =>
      .ite (fun _ => keeps_parseErr hG (fun _ h => h) _) fun _ => keeps_assign _ trivial

theorem keeps_parseFloatingPoint (hG : ReturnsErrors G) (t : FloatType) :
    ParseKeeps G C b (fun _ => True) (fun _ _ => True) (fun _ => True) (parseFloatingPoint t) := by
  refine keeps_onFst_bind (keeps_parseItemHead hG) (fun _ h => h) fun _ _ => ?_
  have herr : ParseKeeps G C b (fun _ : BitVec t.width => True) (fun (_ : Unit) _ => True) (fun _ => True)
      (err .itemTypeMismatch) := keeps_parseErr hG (fun _ h => h) _
  refine .ite (fun _ => herr) fun _ => .ite (fun _ => .ite (fun _ => keeps_assign _ trivial) fun _ => ?_) fun _ => ?_
  · exact keeps_parseErr hG (fun _ h => h) _
  · exact .ite (fun _ => keeps_assign _ trivial) fun _ => keeps_assign _ trivial

theorem keeps_parseBoolean (hG : ReturnsErrors G) :
    ParseKeeps G C b (fun _ => True) (fun _ _ => True) (fun _ => True) parseBoolean := by
  refine Action.Triple.of_eq ?_ fun s hs => available_eq (C := C) hs.1.1 _
  refine (keeps_requireOne hG).onFst.mono (fun _ hs => hs) (fun _ _ hs => hs) (fun _ _ hs => hs) |>.bind fun _ => ?_
  refine keeps_dataAt_zero.onFst.bind fun value => .ite (fun _ => ?_) fun _ => ?_
  · exact Action.triple_fail fun s hs => ⟨⟨hG _, hs.1.1⟩, trivial⟩
  · have hassign : Action.Triple (fun _ : Bool => True) (Action.modify fun _ => wrapSub 32 value.toNat
        TypeCode.boolFalse.toByte.toNat == 1) (fun _ _ => True) (fun (_ : Fault) _ => False) :=
      Action.triple_modify fun _ _ => trivial
    exact (hassign.onSnd.mono (fun _ hs => hs) (fun _ _ hs => hs) fun _ _ hs => hs.2.elim).bind fun _ =>
      keeps_discardOne.onFst

/-! ### Strings -/

/-- The container takes `V` to containers with room for so many bytes, and writing there leaves the room. -/
structure BlobContainer.Keeps (B : BlobContainer δ) (V : δ → Prop) (Room : Nat → δ → Prop) : Prop where
  resize : ∀ {n d d'}, n < wordLimit → V d → B.resize n d = some d' → Room n d'
  overwrite : ∀ {n i bytes d}, Room n d → i + bytes.length ≤ n → Room n (B.overwrite i bytes d)
  kept : ∀ {n d}, Room n d → V d

section Strings
variable {B : BlobContainer δ} {Room : Nat → δ → Prop}

theorem keeps_containerResize (hG : ReturnsErrors G) (hB : B.Keeps V Room) {n : Nat} (hn : n < wordLimit) :
    ParseKeeps G C b V (fun _ => Room n) V (Action.onSnd (B.containerResize n)) := by
  refine keeps_onSnd (F := fun e d => G e ∧ V d) (fun d hd => ?_) fun _ _ h => h
  rw [BlobContainer.containerResize]
  rcases hresize : B.resize n d with _ | d'
  · refine ⟨nofun, fun _ _ heq => ?_⟩
    cases heq
    exact ⟨hG _, hd⟩
  · refine ⟨fun _ _ heq => ?_, nofun⟩
    cases heq
    exact hB.resize hn hd hresize

theorem keeps_readTo (hG : ReturnsErrors G) (hB : B.Keeps V Room) {m i n : Nat} (hm : i + n ≤ m) :
    ParseKeeps G C b (Room m) (fun _ => Room m) V (Detail.readTo B i n) := by
  have hread : ParseKeeps G C b (Room m) (fun _ => Room m) (Room m)
      (Action.onFst (bulkRead n) >>= fun bytes => Action.onSnd (Action.modify (B.overwrite i bytes))) :=
    keeps_onFst_bind (keeps_bulkRead hG n) (fun _ hd => hd) fun bytes hlen =>
      keeps_modify fun d hd => hB.overwrite hd (hlen ▸ hm)
  refine Action.Triple.spoiling hread fun e s t _ ht => ⟨ht.1, hB.kept (hB.overwrite ht.2 ?_)⟩
  exact (Nat.add_le_add_left (bulkCopied_length n s.1) i).trans hm

/-- With more rounds than bytes the loop over chunks ends. -/
theorem keeps_parseBlobChunks (hG : ReturnsErrors G) (hB : B.Keeps V Room) {maxSize : Nat} (expectedType : TypeCode)
    {rounds size : Nat} (hrounds : b.length < rounds) (hsize : size < wordLimit) (hmax : size ≤ maxSize) :
    ParseKeeps G C b (Room size) (fun n d => n ≤ maxSize ∧ V d) V
      (Detail.parseBlobChunks B maxSize expectedType rounds size) := by
  induction rounds generalizing b size with
  | zero => exact absurd hrounds (Nat.not_lt_zero _)
  | succ rounds ih =>
    have htail : b.tail <:+ b := List.tail_suffix b
    have hrest : ∀ x : Parse σ δ Nat, ParseKeeps G C b.tail (Room size) (fun n d => n ≤ maxSize ∧ V d) V x →
        Action.Triple (Action.Both (Ahead C b.tail) (Room size)) x
          (fun n => Action.Both (Ahead C b) fun d => n ≤ maxSize ∧ V d)
          fun e => Action.Both (Broken G C b e) V := fun x hx =>
      hx.mono (fun _ hs => hs) (fun _ _ hs => ⟨hs.1.trans htail, hs.2⟩)
        fun _ _ hs => ⟨⟨hs.1.1, hs.1.2.trans htail⟩, hs.2⟩
    have hhead : Action.Triple (Action.Both (Ahead C b) (Room size)) (Action.onFst parseItemHead)
        (fun _ s => b ≠ [] ∧ Action.Both (Ahead C b.tail) (Room size) s) fun e => Action.Both (Broken G C b e) V :=
      (keeps_headByte hG).onFst.mono (fun _ hs => hs) (fun _ _ hs => ⟨hs.1.1, hs.1.2, hs.2⟩)
        fun _ _ hs => ⟨hs.1, hB.kept hs.2⟩
    refine hhead.bind fun chunkItem => .given fun hne => hrest _ ?_
    have herr : ∀ e, ParseKeeps G C b.tail (Room size) (fun n d => n ≤ maxSize ∧ V d) V (err e) :=
      keeps_parseErr hG fun _ => hB.kept
    refine .ite (fun _ => keeps_pure _ fun _ hd => ⟨hmax, hB.kept hd⟩) fun _ => .ite (fun _ => herr _) fun _ => ?_
    refine keeps_onFst_bind keeps_inputSizeNow (fun _ => hB.kept) fun inputSize hinput => ?_
    refine .ite (fun _ => herr _) fun hmissing => .ite (fun _ => herr _) fun hwrap => ?_
    -- the size has not wrapped, or it would be less than the chunk's
    have hnew : (size + chunkItem.value) % wordLimit = size + chunkItem.value := by
      rw [not_or] at hwrap
      unfold wordLimit at *
      omega
    have hlt : (size + chunkItem.value) % wordLimit < wordLimit := Nat.mod_lt _ (by decide)
    refine Action.Triple.bind ((keeps_containerResize hG hB hlt).weaken fun _ hs => ⟨hs.1, hB.kept hs.2⟩) fun _ => ?_
    refine (keeps_readTo hG hB hnew.ge).bind fun _ => ih ?_ hlt (Nat.le_of_not_lt (not_or.mp hwrap).1)
    have hpos := List.length_pos_of_ne_nil hne
    rw [List.length_tail]
    omega

theorem keeps_parseBlob (hG : ReturnsErrors G) (hB : B.Keeps V Room) (allow : Bool) (maxSize : Nat)
    (expectedType : TypeCode) :
    ParseKeeps G C b V (fun n d => n ≤ maxSize ∧ V d) V (Detail.parseBlob B allow maxSize expectedType) := by
  have herr : ∀ e, ParseKeeps G C b V (fun n d => n ≤ maxSize ∧ V d) V (err e) := keeps_parseErr hG fun _ h => h
  refine keeps_onFst_bind (keeps_parseItemHead hG) (fun _ h => h) fun head _ => .ite (fun _ => herr _) fun _ => ?_
  refine .ite (fun _ => .ite (fun _ => ?_) fun _ => herr _) fun _ => ?_
  · refine (keeps_containerResize hG hB (by decide)).bind fun _ => ?_
    -- the rounds are counted from what is left now
    intro s hs
    have hsize : Action.onFst inputSizeNow s = (.ok (C.unread s.1).length, s) := by
      rw [← C.inputSize_eq hs.1.1]
      rfl
    rw [Action.bind_ok _ hsize]
    have hchunks : ParseKeeps G C (C.unread s.1) (Room 0) (fun n d => n ≤ maxSize ∧ V d) V
        (Detail.parseBlobChunks B maxSize expectedType ((C.unread s.1).length + 1) 0) :=
      keeps_parseBlobChunks hG hB expectedType (Nat.lt_succ_self _) (by decide) (Nat.zero_le _)
    replace hchunks := hchunks s ⟨hs.1.self, hs.2⟩
    exact ⟨fun a t hx => ⟨(hchunks.1 a t hx).1.trans hs.1.2, (hchunks.1 a t hx).2⟩,
      fun e t hx => ⟨⟨(hchunks.2 e t hx).1.1, (hchunks.2 e t hx).1.2.trans hs.1.2⟩, (hchunks.2 e t hx).2⟩⟩
  · refine keeps_onFst_bind keeps_inputSizeNow (fun _ h => h) fun inputSize hinput => ?_
    refine .ite (fun _ => herr _) fun hmissing => .ite (fun _ => herr _) fun hmax => ?_
    have hlt : head.value < wordLimit := by omega
    refine (keeps_containerResize hG hB hlt).bind fun _ => ?_
    refine (keeps_readTo hG hB (by omega)).bind fun _ => keeps_pure _ fun _ hd => ?_
    exact ⟨Nat.le_of_not_lt hmax, hB.kept hd⟩

end Strings

/-! ### Ranges -/

section Ranges
variable {I : Nat → δ → Prop} {f : Nat → Parse σ δ Unit}

theorem keeps_endAtBreak (hG : ReturnsErrors G) (i : Nat) {more : Parse σ δ Nat} {W : Nat → δ → Prop}
    (hend : ∀ d, V d → W i d) (hVU : ∀ d, V d → U d) (hmore : ParseKeeps G C b V W U more) :
    ParseKeeps G C b V W U (Detail.endAtBreak i more) := by
  have hpeek : Action.Triple (Action.Both (Ahead C b) V) (Action.onFst peekByte)
      (fun _ => Action.Both (fun s => Ahead C b s ∧ 1 ≤ s.buffer.length) V) fun e => Action.Both (Broken G C b e) U :=
    (keeps_peekByte hG).onFst.mono (fun _ hs => hs) (fun _ _ hs => hs) fun _ _ hs => ⟨hs.1, hVU _ hs.2⟩
  refine hpeek.bind fun next => .ite (fun _ => ?_) fun _ => hmore.weaken fun _ hs => ⟨hs.1.1, hs.2⟩
  refine (keeps_discardOne.onFst.mono (fun _ hs => hs) (fun _ _ hs => hs) fun _ _ hs => ⟨hs.1, hVU _ hs.2⟩).bind
    fun _ => keeps_pure i hend

theorem keeps_parseIndefiniteElements (hG : ReturnsErrors G) (hI : ∀ k d, I k d → U d)
    (h : ∀ k, k < sizeMax → ParseKeeps G C b (I k) (fun _ => I (k + 1)) U (f k)) (maxSize : Nat) {left i : Nat}
    (hleft : left + i ≤ sizeMax) :
    ParseKeeps G C b (I i) (fun n => I n) U (Detail.parseIndefiniteElements maxSize f left i) := by
  induction left generalizing i with
  | zero => exact keeps_endAtBreak hG i (fun _ hd => hd) (hI i) (keeps_parseErr hG (hI i) _)
  | succ left ih =>
    refine keeps_endAtBreak hG i (fun _ hd => hd) (hI i) (.ite (fun _ => keeps_parseErr hG (hI i) _) fun _ => ?_)
    exact (h i (by omega)).bind fun _ => ih (by omega)

/-- A range is as many elements as it counts, and an index can count no further than a `size_t`. -/
theorem keeps_parseArrayLike (hG : ReturnsErrors G) (hI : ∀ k d, I k d → U d)
    (h : ∀ k, k < sizeMax → ParseKeeps G C b (I k) (fun _ => I (k + 1)) U (f k)) (allow : Bool) (maxSize : Nat)
    (expectedType : TypeCode) :
    ParseKeeps G C b (I 0) (fun n => I n) U (Detail.parseArrayLike allow maxSize expectedType f) := by
  have herr : ∀ e, ParseKeeps G C b (I 0) (fun n => I n) U (err e) := keeps_parseErr hG (hI 0)
  refine keeps_onFst_bind (keeps_parseItemHead hG) (hI 0) fun head _ => .ite (fun _ => herr _) fun _ => ?_
  refine .ite (fun _ => .ite (fun _ => ?_) fun _ => herr _) fun _ => ?_
  · exact keeps_parseIndefiniteElements hG hI h maxSize (by omega)
  · refine keeps_onFst_bind keeps_inputSizeNow (hI 0) fun inputSize hinput => ?_
    refine .ite (fun _ => herr _) fun hmissing => .ite (fun _ => herr _) fun _ => ?_
    have hcount : head.value ≤ sizeMax := by
      have hshift := Nat.shiftRight_le inputSize (if expectedType = .map then 1 else 0)
      exact (Nat.le_of_not_lt hmissing).trans (hshift.trans (Nat.le_pred_of_lt hinput))
    have hloop := Action.Triple.forRange (fun k => Action.Both (Ahead C b) (I k)) (i := 0) (n := head.value)
      fun k _ hk => h k (by omega)
    rw [Nat.zero_add] at hloop
    exact hloop.bind fun _ => keeps_pure _ fun _ hd => hd

end Ranges
end DeepPack
