import DeepPack.Items.HeadContract
import DeepPack.Items.SkipItem

/-! Strings, and what is parsed as a string.

`StringItem` is the grammar of strings with their content. The parser of indefinite strings
does not look whether the head of a chunk is indefinite itself: it reads such a head as one
that announces 31 bytes. `ReadChunks` is what it takes for chunks, with a flag that says
whether a head of this kind was among them; without one they are those of the grammar. -/
namespace DeepPack
open Library InputBuffer

/-- The chunks of an indefinite string up to its break, and what they contain. -/
inductive ChunkContent (m : Nat) : List UInt8 → List UInt8 → Prop where
  | last : ChunkContent m [breakByte] []
  | chunk {info v : Nat} {head content rest more : List UInt8} : Head m info v head → content.length = v →
      ChunkContent m rest more → ChunkContent m (head ++ (content ++ rest)) (content ++ more)

/-- A string of a major type, and what it contains. -/
inductive StringItem (m : Nat) : List UInt8 → List UInt8 → Prop where
  | definite {info v : Nat} {head content : List UInt8} : Head m info v head → content.length = v →
      StringItem m (head ++ content) content
  | indefinite {body content : List UInt8} : ChunkContent m body content → StringItem m (initialByte m 31 :: body) content

/-- What the parser takes for chunks: each head counts for its value, definite or not. -/
inductive ReadChunks (m : Nat) : Bool → List UInt8 → List UInt8 → Prop where
  | last : ReadChunks m false [breakByte] []
  | chunk {nested : Bool} {h : ItemHead} {p content rest more : List UInt8} : ReadFrom h p → h.type = .ofMajor m →
      content.length = h.value → ReadChunks m nested rest more →
      ReadChunks m (h.indefinite || nested) (p ++ (content ++ rest)) (content ++ more)

/-! ### The grammar -/

section Grammar
variable {m : Nat} {body content p : List UInt8}

theorem wellFormed_of_chunkContent (h : ChunkContent m body content) : WellFormed (.chunks m) body := by
  induction h with
  | last => exact .lastChunk
  | chunk hhead hlen _ ih => exact .chunk hhead hlen ih

theorem exists_chunkContent {part : Part} (h : WellFormed part body) (hpart : part = .chunks m) :
    ∃ content, ChunkContent m body content := by
  induction h with
  | lastChunk => exact ⟨[], .last⟩
  | chunk hhead hlen _ ih =>
    cases hpart
    obtain ⟨more, hmore⟩ := ih rfl
    exact ⟨_, .chunk hhead hlen hmore⟩
  | _ => cases hpart

/-- What a string contains is part of it. -/
theorem ChunkContent.length_le (h : ChunkContent m body content) : content.length ≤ body.length := by
  induction h with
  | last => exact Nat.zero_le _
  | chunk _ _ _ ih =>
    simp only [List.length_append]
    omega

theorem StringItem.length_le (h : StringItem m p content) : content.length ≤ p.length := by
  cases h with
  | definite =>
    rw [List.length_append]
    omega
  | indefinite hchunks =>
    have hle := hchunks.length_le
    rw [List.length_cons]
    omega

/-- The strings of the grammar are the well-formed items with a string's head. -/
theorem wellFormed_of_stringItem (hm : m = 2 ∨ m = 3) (h : StringItem m p content) : WellFormed .item p := by
  cases h with
  | definite hhead hlen => exact .string hm hhead hlen
  | indefinite hchunks => exact .stringIndefinite hm (wellFormed_of_chunkContent hchunks)

theorem exists_stringItem (hm : m = 2 ∨ m = 3) (hw : WellFormed .item p) {rest : List UInt8} {h : ItemHead}
    (hh : headOf (p ++ rest) = .ok h) (htype : h.type = .ofMajor m) : ∃ content, StringItem m p content := by
  have hdefinite : ∀ {n info v : Nat} {head tail : List UInt8}, n < 7 → Head n info v head → p = head ++ tail → n = m := by
    intro n info v head tail hn hhead hp
    rw [hp, List.append_assoc, hhead.headOf (by omega) (fun hbad => by have := hbad.1; omega)] at hh
    cases hh
    exact (TypeCode.ofMajor_inj (by omega) (by omega)).mp htype
  have hindefinite : ∀ {n : Nat} {tail : List UInt8}, 2 ≤ n → n ≤ 5 → p = initialByte n 31 :: tail → n = m := by
    intro n tail h2 h5 hp
    rw [hp, List.cons_append, headOf_indefinite (by omega) (by omega)] at hh
    cases hh
    exact (TypeCode.ofMajor_inj (by omega) (by omega)).mp htype
  cases hw with
  | string hn hhead hlen =>
    cases hdefinite (by omega) hhead rfl
    exact ⟨_, .definite hhead hlen⟩
  | stringIndefinite hn hchunks =>
    cases hindefinite (by omega) (by omega) rfl
    obtain ⟨content, hcontent⟩ := exists_chunkContent hchunks rfl
    exact ⟨content, .indefinite hcontent⟩
  | int hn hhead =>
    have := hdefinite (by omega) hhead (List.append_nil _).symm
    omega
  | simple hhead hgood =>
    rw [hhead.headOf (by decide) fun hbad => hgood hbad.2] at hh
    cases hh
    have := (TypeCode.ofMajor_inj (m := 7) (by decide) (by omega)).mp htype
    omega
  | array hhead | map hhead | tag hhead =>
    have := hdefinite (by decide) hhead rfl
    omega
  | arrayIndefinite | mapIndefinite =>
    have := hindefinite (by decide) (by decide) rfl
    omega

/-- Without an indefinite head among them, the chunks are those of the grammar. -/
theorem readChunks_iff (hm : m = 2 ∨ m = 3) : ReadChunks m false body content ↔ ChunkContent m body content := by
  constructor
  · intro h
    generalize hflag : false = nested at h
    induction h with
    | last => exact .last
    | chunk hread htype hlen _ ih =>
      obtain ⟨hdefinite, rfl⟩ := Bool.or_eq_false_iff.mp hflag.symm
      obtain ⟨info, hhead, -⟩ := hread.head (by omega) htype (by rw [hdefinite]; decide)
      exact .chunk hhead hlen (ih rfl)
  · intro h
    induction h with
    | last => exact .last
    | @chunk info v head content rest more hhead hlen _ ih =>
      have hread : ReadFrom ⟨.ofMajor m, 0, head.length, v⟩ head := .definite (by omega) hhead fun hbad => by
        have := hbad.1
        omega
      have hchunk := ReadChunks.chunk hread rfl hlen ih
      rwa [ItemHead.indefinite_zero] at hchunk

end Grammar

/-! ### One derivation -/

theorem readFrom_break : ReadFrom ⟨.special, 1, 1, 31⟩ [breakByte] := .indefinite (m := 7) (by decide) (by decide)

/-- There is one way to read chunks off the front of an input. -/
theorem ReadChunks.unique {m : Nat} (hm : m = 2 ∨ m = 3) {f f' : Bool} {p p' c c' x x' : List UInt8}
    (h : ReadChunks m f p c) (h' : ReadChunks m f' p' c') (heq : p ++ x = p' ++ x') : f = f' ∧ c = c' ∧ x = x' := by
  have hbreak : ∀ {g : ItemHead} {q y y' : List UInt8}, ReadFrom g q → g.type = .ofMajor m → [breakByte] ++ y ≠ q ++ y' := by
    intro g q y y' hread htype heq
    obtain ⟨rfl, -, -⟩ := readFrom_break.unique hread heq
    have := (TypeCode.ofMajor_inj (m := 7) (by decide) (by omega)).mp htype
    omega
  induction h generalizing f' p' c' with
  | last =>
    cases h' with
    | last => exact ⟨rfl, rfl, (List.cons.inj heq).2⟩
    | chunk hread htype =>
      rw [List.append_assoc] at heq
      exact absurd heq (hbreak hread htype)
  | chunk hread htype hlen _ ih =>
    cases h' with
    | last =>
      rw [List.append_assoc] at heq
      exact absurd heq.symm (hbreak hread htype)
    | chunk hread' htype' hlen' hrest' =>
      rw [List.append_assoc, List.append_assoc, List.append_assoc, List.append_assoc] at heq
      obtain ⟨rfl, rfl, hbody⟩ := hread.unique hread' heq
      obtain ⟨rfl, hmore⟩ := List.append_inj hbody (hlen.trans hlen'.symm)
      obtain ⟨rfl, rfl, rfl⟩ := ih hrest' hmore
      exact ⟨rfl, rfl, rfl⟩

/-! ### The parser -/

namespace BlobContainer

/-- A container that can grow takes a chunk behind what it holds. -/
theorem growable_append {content : List UInt8} (bytes : List UInt8) {n : Nat} (hn : content.length = n) :
    ∃ d, growable.resize (n + bytes.length) content = some d ∧ growable.overwrite n bytes d = content ++ bytes := by
  subst hn
  refine ⟨_, rfl, ?_⟩
  have htake : content.take (content.length + bytes.length) = content := List.take_of_length_le (Nat.le_add_right _ _)
  show putAt content.length bytes _ = _
  rw [htake, putAt, List.take_left, List.drop_of_length_le, List.append_nil]
  rw [List.length_append, List.length_replicate]
  omega

/-- Or it takes a string in place of what it holds. -/
theorem growable_replace (content bytes : List UInt8) :
    ∃ d, growable.resize bytes.length content = some d ∧ growable.overwrite 0 bytes d = bytes := by
  refine ⟨_, rfl, ?_⟩
  show putAt 0 bytes _ = _
  rw [putAt, List.take_zero, List.nil_append, List.drop_of_length_le, List.append_nil]
  rw [List.length_append, List.length_take, List.length_replicate]
  omega

end BlobContainer

section Parser
variable {m maxSize rounds size : Nat} {b d body content rest : List UInt8}

/-- The bytes of a string, read to where they belong. -/
theorem fill_memory {bytes tail d' d'' : List UInt8} (hb : (bytes ++ tail).length < wordLimit) {n i : Nat}
    (hresize : BlobContainer.growable.resize n d = some d') (hover : BlobContainer.growable.overwrite i bytes d' = d'')
    (k : Parse MemoryInputStream (List UInt8) Nat) :
    (Action.onSnd (BlobContainer.growable.containerResize n) >>= fun _ =>
      Detail.readTo .growable i bytes.length >>= fun _ => k) (memoryInput (bytes ++ tail), d) = k (memoryInput tail, d'') := by
  have hcontainer : Action.onSnd (BlobContainer.growable.containerResize n) (memoryInput (bytes ++ tail), d) =
      (.ok (), (memoryInput (bytes ++ tail), d')) := by
    rw [Action.onSnd_apply, BlobContainer.containerResize, hresize]
  have hbulk : bulkRead bytes.length (memoryInput (bytes ++ tail)) = (.ok bytes, memoryInput tail) := by
    rw [MemoryInputStream.bulkRead_memory _ hb, if_pos (by rw [List.length_append]; exact Nat.le_add_right _ _),
      List.take_left, List.drop_left]
  have hread : Detail.readTo .growable i bytes.length (memoryInput (bytes ++ tail), d') =
      (.ok (), (memoryInput tail, d'')) := by
    apply Action.spoiling_ok ((Action.bind_ok _ (Action.onFst_ok hbulk d')).trans ?_)
    rw [← hover]
    rfl
  rw [Action.bind_ok _ hcontainer, Action.bind_ok _ hread]

/-- One chunk, with the head it was read from. -/
theorem parseBlobChunks_chunk {h : ItemHead} {p : List UInt8} (hm : m = 2 ∨ m = 3) (hread : ReadFrom h p)
    (htype : h.type = .ofMajor m) (hlen : content.length = h.value) (hb : (p ++ (content ++ rest)).length < wordLimit)
    (hmax : size + content.length ≤ maxSize) (hsize : size + content.length < wordLimit) (hd : d.length = size) :
    Detail.parseBlobChunks .growable maxSize (.ofMajor m) (rounds + 1) size (memoryInput (p ++ (content ++ rest)), d) =
      Detail.parseBlobChunks .growable maxSize (.ofMajor m) rounds (size + content.length) (memoryInput rest, d ++ content) := by
  have hhead := parseItemHead_memory hb (hread.headOf (content ++ rest))
  rw [hread.encodedLength_eq, List.drop_left] at hhead
  have hbreak : ¬ h.isSpecialBreak := by
    rw [ItemHead.isSpecialBreak, htype]
    rcases hm with rfl | rfl <;> exact Bool.false_ne_true
  have hinput : Action.onFst inputSizeNow (memoryInput (content ++ rest), d) =
      (.ok (content ++ rest).length, (memoryInput (content ++ rest), d)) := rfl
  have hsum : (size + h.value) % wordLimit = size + content.length := by
    rw [← hlen]
    exact Nat.mod_eq_of_lt hsize
  have hcontent : (content ++ rest).length < wordLimit := by
    rw [List.length_append] at hb
    omega
  rw [Detail.parseBlobChunks]
  apply (Action.bind_ok _ (Action.onFst_ok hhead d)).trans
  rw [if_neg hbreak, if_neg (not_not.mpr htype), Action.bind_ok _ hinput]
  dsimp only
  rw [if_neg (by rw [List.length_append]; omega), hsum, if_neg (by omega), ← hlen]
  obtain ⟨d', hresize, hover⟩ := BlobContainer.growable_append content hd
  exact fill_memory hcontent hresize hover _

/-- Chunks that are read and fit are parsed. -/
theorem parseBlobChunks_ok (hm : m = 2 ∨ m = 3) {nested : Bool} (h : ReadChunks m nested body content)
    (hb : (body ++ rest).length < wordLimit) (hrounds : body.length ≤ rounds) (hmax : size + content.length ≤ maxSize)
    (hsize : size + (body ++ rest).length < wordLimit) (hd : d.length = size) :
    Detail.parseBlobChunks .growable maxSize (.ofMajor m) rounds size (memoryInput (body ++ rest), d) =
      (.ok (size + content.length), (memoryInput rest, d ++ content)) := by
  induction h generalizing rounds size d with
  | last =>
    obtain ⟨rounds, rfl⟩ : ∃ k, rounds = k + 1 := ⟨rounds - 1, by rw [List.length_singleton] at hrounds; omega⟩
    have hhead := parseItemHead_memory hb (readFrom_break.headOf rest)
    rw [Detail.parseBlobChunks, List.append_nil]
    exact Action.bind_ok _ (Action.onFst_ok hhead d)
  | @chunk nested h p content body more hread htype hlen _ ih =>
    have hpos : 0 < p.length := by
      have hmem := hread.length_mem
      cases p with
      | nil => exact absurd hmem (by decide)
      | cons => exact Nat.succ_pos _
    rw [List.length_append] at hmax
    rw [List.append_assoc, List.append_assoc] at hb hsize ⊢
    simp only [List.length_append] at hb hrounds hsize
    obtain ⟨rounds, rfl⟩ : ∃ k, rounds = k + 1 := ⟨rounds - 1, by omega⟩
    rw [parseBlobChunks_chunk hm hread htype hlen (by simp only [List.length_append]; omega) (by omega) (by omega) hd,
      ih (by rw [List.length_append]; omega) (by omega) (by omega) (by rw [List.length_append]; omega)
        (by rw [List.length_append]; omega), List.append_assoc, List.length_append, Nat.add_assoc]

/-- What starts with a head that is parsed goes on behind the head. -/
theorem readFrom_of_parse {α : Type} {f : ItemHead → Parse MemoryInputStream (List UInt8) α} {a : α}
    {s : InputBuffer MemoryInputStream × List UInt8} (hb : b.length < wordLimit)
    (h : (Action.onFst parseItemHead >>= f) (memoryInput b, d) = (.ok a, s)) :
    ∃ head p rest, b = p ++ rest ∧ ReadFrom head p ∧ f head (memoryInput rest, d) = (.ok a, s) := by
  rcases hh : headOf b with e | head
  · have hfail := Action.onFst_apply parseItemHead (memoryInput b) d
    rw [parseItemHead_memory_error hb hh] at hfail
    have hstep := (Action.bind_error f hfail).symm.trans h
    cases hstep
  · obtain ⟨p, rest, rfl, hread⟩ := exists_readFrom hh
    have hhead := parseItemHead_memory hb hh
    rw [hread.encodedLength_eq, List.drop_left] at hhead
    exact ⟨head, p, rest, rfl, hread, (Action.bind_ok f (Action.onFst_ok hhead d)).symm.trans h⟩

/-- Chunks that are parsed were read, and fit. -/
theorem readChunks_of_parse (hm : m = 2 ∨ m = 3) {n : Nat} {s : InputBuffer MemoryInputStream × List UInt8}
    (hsize : size + b.length < wordLimit) (hmax : size ≤ maxSize) (hd : d.length = size)
    (h : Detail.parseBlobChunks .growable maxSize (.ofMajor m) rounds size (memoryInput b, d) = (.ok n, s)) :
    ∃ nested body content rest, b = body ++ rest ∧ ReadChunks m nested body content ∧ size + content.length ≤ maxSize := by
  induction rounds generalizing size b d with
  | zero => cases h
  | succ rounds ih =>
    have hb : b.length < wordLimit := by omega
    obtain ⟨c, p, tail, rfl, hread, hstep⟩ := readFrom_of_parse hb h
    by_cases hbreak : c.isSpecialBreak
    · rw [ItemHead.isSpecialBreak, Bool.and_eq_true, beq_iff_eq] at hbreak
      obtain rfl := hread.eq_of_indefinite (m := 7) (by decide) hbreak.1 hbreak.2
      exact ⟨false, _, [], tail, rfl, .last, hmax⟩
    rw [if_neg hbreak] at hstep
    by_cases htype : c.type ≠ .ofMajor m
    · rw [if_pos htype] at hstep
      cases hstep
    have hinput : Action.onFst inputSizeNow (memoryInput tail, d) = (.ok tail.length, (memoryInput tail, d)) := rfl
    rw [if_neg htype, Action.bind_ok _ hinput] at hstep
    by_cases hmissing : tail.length < c.value
    · rw [if_pos hmissing] at hstep
      cases hstep
    rw [List.length_append] at hsize
    have hsum : (size + c.value) % wordLimit = size + c.value := Nat.mod_eq_of_lt (by omega)
    rw [if_neg hmissing, hsum] at hstep
    by_cases hlimit : maxSize < size + c.value ∨ size + c.value < c.value
    · rw [if_pos hlimit] at hstep
      cases hstep
    -- the chunk is taken, and what is left was parsed as chunks again
    obtain ⟨content, tail, rfl, hlen⟩ : ∃ content rest, tail = content ++ rest ∧ content.length = c.value :=
      ⟨tail.take c.value, tail.drop c.value, (List.take_append_drop _ _).symm,
        List.length_take_of_le (Nat.le_of_not_lt hmissing)⟩
    rw [List.length_append] at hsize
    rw [parseBlobChunks_chunk hm hread (not_not.mp htype) hlen hb (by omega) (by omega) hd] at h
    obtain ⟨nested, body, more, rest, rfl, hmore, hfits⟩ :=
      ih (by omega) (by omega) (by rw [List.length_append]; omega) h
    refine ⟨c.indefinite || nested, _, content ++ more, rest, ?_, .chunk hread (not_not.mp htype) hlen hmore, ?_⟩
    · rw [List.append_assoc, List.append_assoc]
    · rw [List.length_append]
      omega

end Parser

/-! ### Strings -/

/-- What the parser takes for a string, and whether an indefinite head was read as a chunk's. -/
inductive ReadString (m : Nat) : Bool → List UInt8 → List UInt8 → Prop where
  | definite {info v : Nat} {head content : List UInt8} : Head m info v head → content.length = v →
      ReadString m false (head ++ content) content
  | indefinite {nested : Bool} {body content : List UInt8} : ReadChunks m nested body content →
      ReadString m nested (initialByte m 31 :: body) content

section Strings
variable {m maxSize : Nat} {p content rest : List UInt8} {nested : Bool}

theorem readString_iff (hm : m = 2 ∨ m = 3) : ReadString m false p content ↔ StringItem m p content := by
  constructor
  · intro h
    generalize hflag : false = nested at h
    cases h with
    | definite hhead hlen => exact .definite hhead hlen
    | indefinite hchunks =>
      subst hflag
      exact .indefinite ((readChunks_iff hm).mp hchunks)
  · intro h
    cases h with
    | definite hhead hlen => exact .definite hhead hlen
    | indefinite hchunks => exact .indefinite ((readChunks_iff hm).mpr hchunks)

theorem readFrom_definite (hm : m = 2 ∨ m = 3) {info v : Nat} {head : List UInt8} (hhead : Head m info v head) :
    ReadFrom ⟨.ofMajor m, 0, head.length, v⟩ head :=
  .definite (by omega) hhead fun hbad => by
    have := hbad.1
    omega

theorem readFrom_indefinite (hm : m = 2 ∨ m = 3) : ReadFrom ⟨.ofMajor m, 1, 1, 31⟩ [initialByte m 31] :=
  .indefinite (by omega) (by omega)

theorem ReadString.unique (hm : m = 2 ∨ m = 3) {nested' : Bool} {p' content' rest' : List UInt8}
    (h : ReadString m nested p content) (h' : ReadString m nested' p' content') (heq : p ++ rest = p' ++ rest') :
    nested = nested' ∧ content = content' ∧ rest = rest' := by
  cases h with
  | definite hhead hlen =>
    rw [List.append_assoc] at heq
    cases h' with
    | definite hhead' hlen' =>
      rw [List.append_assoc] at heq
      obtain ⟨hsame, rfl, hmore⟩ := (readFrom_definite hm hhead).unique (readFrom_definite hm hhead') heq
      cases hsame
      obtain ⟨rfl, rfl⟩ := List.append_inj hmore (hlen.trans hlen'.symm)
      exact ⟨rfl, rfl, rfl⟩
    | indefinite =>
      obtain ⟨hsame, -⟩ := (readFrom_definite hm hhead).unique (readFrom_indefinite hm) heq
      cases hsame
  | indefinite hchunks =>
    cases h' with
    | definite hhead' =>
      rw [List.append_assoc] at heq
      obtain ⟨hsame, -⟩ := (readFrom_indefinite hm).unique (readFrom_definite hm hhead') heq
      cases hsame
    | indefinite hchunks' => exact hchunks.unique hm hchunks' (List.cons.inj heq).2

/-- What is read as a string, and fits, is parsed. -/
theorem parseBlob_ok (hm : m = 2 ∨ m = 3) (h : ReadString m nested p content) (hb : (p ++ rest).length < wordLimit)
    (hmax : content.length ≤ maxSize) (d : List UInt8) :
    Detail.parseBlob .growable true maxSize (.ofMajor m) (memoryInput (p ++ rest), d) =
      (.ok content.length, (memoryInput rest, content)) := by
  cases h with
  | @definite info v head content hhead hlen =>
    rw [List.append_assoc] at hb ⊢
    have hh := parseItemHead_memory hb ((readFrom_definite hm hhead).headOf (content ++ rest))
    rw [List.drop_left] at hh
    have hinput : Action.onFst inputSizeNow (memoryInput (content ++ rest), d) =
        (.ok (content ++ rest).length, (memoryInput (content ++ rest), d)) := rfl
    have hcontent : (content ++ rest).length < wordLimit := by
      rw [List.length_append] at hb
      omega
    obtain ⟨d', hresize, hover⟩ := BlobContainer.growable_replace d content
    apply (Action.bind_ok _ (Action.onFst_ok hh d)).trans
    rw [if_neg (not_not.mpr rfl), ItemHead.indefinite_zero, if_neg Bool.false_ne_true, Action.bind_ok _ hinput]
    dsimp only
    rw [if_neg (by rw [List.length_append]; omega), if_neg (by omega), ← hlen]
    exact fill_memory hcontent hresize hover _
  | @indefinite nested body content hchunks =>
    have hh := parseItemHead_memory hb ((readFrom_indefinite hm).headOf (body ++ rest))
    have hbody : (body ++ rest).length < wordLimit := Nat.lt_of_succ_lt hb
    apply (Action.bind_ok _ (Action.onFst_ok hh d)).trans
    rw [if_neg (not_not.mpr rfl), ItemHead.indefinite_one, if_pos rfl, if_pos rfl]
    have hclear : Action.onSnd (BlobContainer.growable.containerResize 0) (memoryInput (body ++ rest), d) =
        (.ok (), (memoryInput (body ++ rest), [])) := by
      rw [Action.onSnd_apply, BlobContainer.containerResize]
      simp [BlobContainer.growable]
    have hinput : Action.onFst inputSizeNow (memoryInput (body ++ rest), ([] : List UInt8)) =
        (.ok (body ++ rest).length, (memoryInput (body ++ rest), [])) := rfl
    apply (Action.bind_ok _ hclear).trans
    rw [Action.bind_ok _ hinput]
    have hrounds : body.length ≤ (body ++ rest).length + 1 := by
      rw [List.length_append]
      omega
    have hfits : 0 + content.length ≤ maxSize := by omega
    have hloop := parseBlobChunks_ok hm hchunks hbody hrounds hfits (by omega) (d := []) rfl
    rwa [Nat.zero_add, List.nil_append] at hloop

/-- What is parsed was read as a string, and fits. -/
theorem readString_of_parse (hm : m = 2 ∨ m = 3) {b d : List UInt8} {n : Nat}
    {s : InputBuffer MemoryInputStream × List UInt8} (hb : b.length < wordLimit)
    (h : Detail.parseBlob .growable true maxSize (.ofMajor m) (memoryInput b, d) = (.ok n, s)) :
    ∃ nested p content rest, b = p ++ rest ∧ ReadString m nested p content ∧ content.length ≤ maxSize := by
  obtain ⟨c, p, tail, rfl, hread, hstep⟩ := readFrom_of_parse hb h
  by_cases htype : c.type ≠ .ofMajor m
  · rw [if_pos htype] at hstep
    cases hstep
  rw [if_neg htype] at hstep
  by_cases hindefinite : c.indefinite
  · obtain rfl := hread.eq_of_indefinite (by omega) (not_not.mp htype) hindefinite
    have htail : tail.length < wordLimit := Nat.lt_of_succ_lt hb
    rw [if_pos hindefinite, if_pos rfl] at hstep
    have hclear : Action.onSnd (BlobContainer.growable.containerResize 0) (memoryInput tail, d) =
        (.ok (), (memoryInput tail, [])) := by
      rw [Action.onSnd_apply, BlobContainer.containerResize]
      simp [BlobContainer.growable]
    have hloop := (Action.bind_ok _ hclear).symm.trans hstep
    obtain ⟨nested, body, content, rest, rfl, hchunks, hfits⟩ :=
      readChunks_of_parse hm (by omega) (Nat.zero_le maxSize) (d := []) rfl hloop
    rw [Nat.zero_add] at hfits
    exact ⟨nested, initialByte m 31 :: body, content, rest, rfl, .indefinite hchunks, hfits⟩
  · obtain ⟨info, hhead', -⟩ := hread.head (by omega) (not_not.mp htype) hindefinite
    have hinput : Action.onFst inputSizeNow (memoryInput tail, d) = (.ok tail.length, (memoryInput tail, d)) := rfl
    rw [if_neg hindefinite, Action.bind_ok _ hinput] at hstep
    by_cases hmissing : tail.length < c.value
    · rw [if_pos hmissing] at hstep
      cases hstep
    rw [if_neg hmissing] at hstep
    by_cases hlimit : maxSize < c.value
    · rw [if_pos hlimit] at hstep
      cases hstep
    have hlen := List.length_take_of_le (Nat.le_of_not_lt hmissing)
    refine ⟨false, p ++ tail.take c.value, tail.take c.value, tail.drop c.value, ?_, .definite hhead' hlen, by omega⟩
    rw [List.append_assoc, List.take_append_drop]

end Strings

/-! ### The grammar and the parser -/

/-- The parser takes the strings of the grammar that fit, and nothing else. -/
def AcceptsStrings (m maxSize : Nat) (parse : Parse MemoryInputStream (List UInt8) Nat) (b d : List UInt8) : Prop :=
  (∀ p content rest, b = p ++ rest → StringItem m p content → content.length ≤ maxSize →
    parse (memoryInput b, d) = (.ok content.length, (memoryInput rest, content))) ∧
  ((∀ p content rest, b = p ++ rest → StringItem m p content → ¬ content.length ≤ maxSize) →
    ∃ e t, parse (memoryInput b, d) = (.error e, t))

/-- Of the items with a string's head, the parser takes those that can be skipped, to the same place. -/
def AgreesWithSkip (m : Nat) (parse : Parse MemoryInputStream (List UInt8) Nat) (b d : List UInt8) : Prop :=
  ∀ rest, (∃ n content, parse (memoryInput b, d) = (.ok n, (memoryInput rest, content))) ↔
    (∃ h, headOf b = .ok h ∧ h.type = .ofMajor m) ∧ Action.Returns skipItem (memoryInput b) (.ok (), memoryInput rest)

/-- The input starts with an indefinite string that is contained in it and fits, but only if an indefinite
head among its chunks is read as one that announces 31 bytes. -/
def Misread (m maxSize : Nat) (b : List UInt8) : Prop :=
  ∃ p content rest, b = p ++ rest ∧ ReadString m true p content ∧ content.length ≤ maxSize

section Grammar
variable {m maxSize : Nat} {b : ByteSpan} {d : List UInt8}

theorem memoryInput_inj {x y : List UInt8} (h : memoryInput x = memoryInput y) : x = y := congrArg InputBuffer.buffer h

theorem not_acceptsStrings (hm : m = 2 ∨ m = 3) (h : Misread m maxSize b.bytes) :
    ¬ AcceptsStrings m maxSize (Detail.parseBlob .growable true maxSize (.ofMajor m)) b.bytes d := by
  intro haccepts
  obtain ⟨p, content, rest, hb, hread, hmax⟩ := h
  have hfits := b.fits
  rw [hb] at hfits haccepts
  have hparse := parseBlob_ok hm hread hfits hmax d
  obtain ⟨e, t, hfail⟩ := haccepts.2 fun p' content' rest' hb' hitem _ => by
    have hsame := hread.unique hm ((readString_iff hm).mpr hitem) hb'
    cases hsame.1
  rw [hparse] at hfail
  cases hfail

theorem acceptsStrings (hm : m = 2 ∨ m = 3) (h : ¬ Misread m maxSize b.bytes) :
    AcceptsStrings m maxSize (Detail.parseBlob .growable true maxSize (.ofMajor m)) b.bytes d := by
  constructor
  · intro p content rest hb hitem hmax
    rw [hb]
    exact parseBlob_ok hm ((readString_iff hm).mpr hitem) (hb ▸ b.fits) hmax d
  · intro hno
    rcases hrun : Detail.parseBlob .growable true maxSize (.ofMajor m) (memoryInput b.bytes, d) with ⟨e | n, s⟩
    · exact ⟨e, s, rfl⟩
    · obtain ⟨nested, p, content, rest, hb, hread, hmax⟩ := readString_of_parse hm b.fits hrun
      cases nested with
      | false => exact absurd hmax (hno p content rest hb ((readString_iff hm).mp hread))
      | true => exact absurd ⟨p, content, rest, hb, hread, hmax⟩ h

theorem StringItem.head {p content : List UInt8} (hm : m = 2 ∨ m = 3) (h : StringItem m p content) (rest : List UInt8) :
    ∃ h, headOf (p ++ rest) = .ok h ∧ h.type = .ofMajor m := by
  cases h with
  | definite hhead hlen =>
    rw [List.append_assoc]
    exact ⟨_, (readFrom_definite hm hhead).headOf _, rfl⟩
  | indefinite hchunks => exact ⟨_, (readFrom_indefinite hm).headOf _, rfl⟩

theorem agreesWithSkip (hm : m = 2 ∨ m = 3) (h : ¬ Misread m sizeMax b.bytes) :
    AgreesWithSkip m (Detail.parseBlob .growable true sizeMax (.ofMajor m)) b.bytes d := by
  have haccepts := acceptsStrings (d := d) hm h
  intro rest
  constructor
  · intro hparse
    obtain ⟨n, content, hrun⟩ := hparse
    obtain ⟨nested, p, content', rest', hb, hread, hmax⟩ := readString_of_parse hm b.fits hrun
    cases nested with
    | true => exact absurd ⟨p, content', rest', hb, hread, hmax⟩ h
    | false =>
      have hitem := (readString_iff hm).mp hread
      rw [haccepts.1 p content' rest' hb hitem hmax] at hrun
      obtain rfl : rest' = rest := memoryInput_inj (congrArg (fun r => r.2.1) hrun)
      have hskip := (skipItem_accepts b (memoryInput rest')).mpr ⟨p, rest', hb, wellFormed_of_stringItem hm hitem, rfl⟩
      rw [hb] at hskip ⊢
      exact ⟨hitem.head hm rest', hskip⟩
  · intro hboth
    obtain ⟨⟨c, hc, htype⟩, hskip⟩ := hboth
    obtain ⟨p, rest', hb, hw, hrest⟩ := (skipItem_accepts b (memoryInput rest)).mp hskip
    obtain rfl := memoryInput_inj hrest
    rw [hb] at hc
    obtain ⟨content, hitem⟩ := exists_stringItem hm hw hc htype
    have hlen : content.length ≤ sizeMax := by
      have hfits := b.fits
      have hle : content.length ≤ p.length := hitem.length_le
      have hsize : sizeMax = wordLimit - 1 := rfl
      rw [hb, List.length_append] at hfits
      omega
    exact ⟨_, _, haccepts.1 p content rest hb hitem hlen⟩

end Grammar

/-- Strings are parsed as the grammar has them, and as they are skipped, exactly where no indefinite head is
read as the head of a chunk. -/
theorem parseString_iff (b : ByteSpan) (d : List UInt8) (maxSize : Nat) :
    (AcceptsStrings 2 maxSize (parseBinary .growable maxSize) b.bytes d ∧
      (maxSize = sizeMax → AgreesWithSkip 2 (parseBinary .growable maxSize) b.bytes d) ↔ ¬ Misread 2 maxSize b.bytes) ∧
    (AcceptsStrings 3 maxSize (parseText .growable maxSize) b.bytes d ∧
      (maxSize = sizeMax → AgreesWithSkip 3 (parseText .growable maxSize) b.bytes d) ↔ ¬ Misread 3 maxSize b.bytes) := by
  have hboth : ∀ m, m = 2 ∨ m = 3 →
      (AcceptsStrings m maxSize (Detail.parseBlob .growable true maxSize (.ofMajor m)) b.bytes d ∧
        (maxSize = sizeMax → AgreesWithSkip m (Detail.parseBlob .growable true maxSize (.ofMajor m)) b.bytes d) ↔
      ¬ Misread m maxSize b.bytes) := by
    intro m hm
    constructor
    · exact fun haccepts hmisread => not_acceptsStrings hm hmisread haccepts.1
    · intro h
      refine ⟨acceptsStrings hm h, fun hmax => ?_⟩
      subst hmax
      exact agreesWithSkip hm h
  exact ⟨hboth 2 (.inl rfl), hboth 3 (.inr rfl)⟩

/-- An indefinite string of 31 bytes whose only chunk has an indefinite head. -/
def nestedString : ByteSpan := ⟨0x5f :: 0x5f :: (List.replicate 31 0 ++ [0xff]), by decide⟩

theorem misread_nestedString : Misread 2 sizeMax nestedString.bytes := by
  have hlen : (List.replicate 31 (0 : UInt8)).length = 31 := by decide
  have hchunk := ReadChunks.chunk (readFrom_indefinite (.inl rfl)) rfl hlen (.last (m := 2))
  rw [ItemHead.indefinite_one, Bool.true_or] at hchunk
  exact ⟨_, _, [], rfl, .indefinite hchunk, by decide⟩

/-- It is parsed, although it is no string. -/
theorem nestedString_accepted :
    ¬ AcceptsStrings 2 sizeMax (parseBinary .growable sizeMax) nestedString.bytes [] :=
  not_acceptsStrings (.inl rfl) misread_nestedString

end DeepPack
