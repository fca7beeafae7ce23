/-
What the operations of `FlatBufferBuilder` do to the buffer.

Between two objects the builder is `Ready`.  Each operation is then either one definite change of
the builder or a failed assertion, and the condition between the two is on the number of bytes:
since every check looks at the size before the step, only the last check of an operation counts.
Tables are done for the one that the program builds, with one offset in the first place; `EndTable`
finds a vtable with the same bytes or remembers its own.
-/
import Cube.Protocol.FlatBufferBuilder

namespace Protocol.Flatbuffers.FlatBufferBuilder

open Library

variable {b : FlatBufferBuilder}

/-- Between two objects: no table is open, nothing is finished, and the buffer is at most one push
over the limit. -/
structure Ready (b : FlatBufferBuilder) : Prop where
  closed : b.nested = false
  noFields : b.fieldLocs = []
  noSlots : b.maxVoffset = 0
  unfinished : b.finished = false
  minalign_le : b.minalign ≤ 4
  small : b.buf.length < maxBufferSize + 8

theorem Ready.size_eq (hb : b.Ready) : b.size = b.buf.length := by
  have hsmall := hb.small
  unfold size
  unfold maxBufferSize at hsmall
  omega

/-- The bytes of a string, its terminator and what aligns them in front of `length` bytes. -/
def stringBytes (length : Nat) (str : List UInt8) : List UInt8 :=
  str ++ (List.replicate 1 0 ++ List.replicate ((4 - (length + (str.length + 1)) % 4) % 4) 0)

theorem length_stringBytes (length : Nat) (str : List UInt8) :
    (stringBytes length str).length
      = str.length + (1 + (4 - (length + (str.length + 1)) % 4) % 4) := by
  unfold stringBytes
  rw [List.length_append, List.length_append, List.length_replicate, List.length_replicate]

theorem createString_eq (hb : b.Ready) {str : List UInt8}
    (hshort : str.length < 0x80000000 ∨ b.buf.length + str.length < 0xfffffffc) :
    b.createString str =
      if b.buf.length + (stringBytes b.buf.length str).length < maxBufferSize then
        .ok ({ b.grow (toLittleEndian 4 str.length ++ stringBytes b.buf.length str) with
            minalign := 4 },
          b.buf.length + (stringBytes b.buf.length str).length + 4)
      else .error .assertion := by
  have hsmall := hb.small
  have halign : max (max b.minalign 4) 4 = 4 := by
    have hle := hb.minalign_le
    omega
  have hsize := hb.size_eq
  unfold createString notNested preAlign pushElement align fill assert
  simp only [bind, ite_bind, ok_bind, push_eq, hb.closed, hb.noFields, if_true, pure, Except.pure,
    Nat.add_one_ne_zero, if_false, paddingBytes_four]
  have hpad : ∀ c : FlatBufferBuilder, c.buf.length % 4 = 0 → (4 - c.size % 4) % 4 = 0 := by
    intro c hc
    unfold size
    omega
  rw [length_stringBytes, hpad]
  · unfold stringBytes
    unfold maxBufferSize at *
    simp only [size, grow, trackMinAlign, List.length_append, List.length_replicate,
      length_toLittleEndian, List.append_assoc, halign, OfNat.ofNat_ne_zero, false_or, true_or,
      if_true, List.replicate_zero, List.nil_append, List.length_nil] at *
    rw [hsize]
    generalize hp : (4 - (b.buf.length + (str.length + 1)) % 4) % 4 = pad
    by_cases hroom : b.buf.length + (str.length + (1 + pad)) < 2147483647
    · have hfits : (4 + (str.length + (1 + (pad + b.buf.length)))) % 4294967296
          = b.buf.length + (str.length + (1 + pad)) + 4 := by omega
      rw [if_pos hroom, if_pos (by omega), if_pos (by omega), if_pos (by omega), if_pos (by omega),
        hfits]
    · rw [if_neg hroom]
      split_ifs
      all_goals first | rfl | omega
  · simp only [grow, trackMinAlign, List.length_append, List.length_replicate]
    omega

/-! ### Tables -/

/-- At an aligned place nothing is filled in before an offset. -/
theorem align_eq (haligned : b.buf.length % 4 = 0) : b.align 4 = .ok (b.trackMinAlign 4) := by
  have hpad : (4 - b.size % 4) % 4 = 0 := by
    unfold size
    omega
  unfold align fill
  rw [push_eq, paddingBytes_four, hpad, if_pos (.inl rfl)]
  rfl

theorem pushElement_eq (haligned : b.buf.length % 4 = 0) (element : Nat) :
    b.pushElement 4 element =
      if b.size < maxBufferSize then
        .ok ((b.trackMinAlign 4).grow (toLittleEndian 4 element), (b.buf.length + 4) % 0x100000000)
      else .error .assertion := by
  unfold pushElement
  rw [align_eq haligned]
  simp only [bind, ok_bind, ite_bind, push_eq, length_toLittleEndian, OfNat.ofNat_ne_zero, false_or]
  unfold size grow trackMinAlign
  simp only [List.length_append, length_toLittleEndian, Nat.add_comm 4]
  rfl

theorem referTo_eq (haligned : b.buf.length % 4 = 0) (hsmall : b.buf.length < maxBufferSize + 8)
    {off : Nat} (hoff : off ≠ 0) (hin : off ≤ b.buf.length) :
    b.referTo off = .ok (b.trackMinAlign 4, b.buf.length - off + 4) := by
  have hsize : (b.trackMinAlign 4).size = b.buf.length := by
    have hsame : (b.trackMinAlign 4).size = b.size := rfl
    unfold maxBufferSize at hsmall
    rw [hsame, size]
    omega
  have he : (b.buf.length - off + 4) % 0x100000000 = b.buf.length - off + 4 := by
    unfold maxBufferSize at hsmall
    omega
  unfold referTo assert
  rw [align_eq haligned]
  simp only [bind, ok_bind, ite_bind]
  rw [hsize, he, if_pos ⟨hoff, hin⟩]
  rfl

/-- The builder with one more field in the open table, which is what lies at its front. -/
def withField (b : FlatBufferBuilder) (field : Nat) : FlatBufferBuilder :=
  { b with
    fieldLocs := b.fieldLocs ++ [⟨b.buf.length, field⟩]
    maxVoffset := max b.maxVoffset field }

/-- A field of the open table that refers to what lies `off` from the end. -/
theorem addOffset_eq (haligned : b.buf.length % 4 = 0) (hsmall : b.buf.length < maxBufferSize + 8)
    {off : Nat} (hoff : off ≠ 0) (hin : off ≤ b.buf.length) (field : Nat) :
    b.addOffset field off =
      if b.buf.length + 4 < maxBufferSize then
        .ok (((b.trackMinAlign 4).grow (toLittleEndian 4 (b.buf.length - off + 4))).withField field)
      else .error .assertion := by
  have htwice : (b.trackMinAlign 4).trackMinAlign 4 = b.trackMinAlign 4 := by
    unfold trackMinAlign
    rw [Nat.max_assoc, Nat.max_self]
  unfold addOffset addElement
  rw [if_neg hoff, referTo_eq haligned hsmall hoff hin]
  simp only [bind, ok_bind]
  rw [if_neg (Nat.succ_ne_zero _), pushElement_eq (b := b.trackMinAlign 4) haligned, htwice]
  unfold trackField ensureSpace assert
  simp only [bind, ite_bind]
  unfold size withField grow trackMinAlign
  unfold maxBufferSize at *
  simp only [List.length_append, length_toLittleEndian]
  by_cases hroom : b.buf.length + 4 < 0x7fffffff
  · have hplace : (b.buf.length + 4) % 0x100000000 = 4 + b.buf.length := by omega
    rw [if_pos (by omega), if_pos (by omega), if_pos hroom, hplace]
    rfl
  · rw [if_neg hroom]
    by_cases hfirst : b.buf.length % 0x100000000 < 0x7fffffff
    · rw [if_pos hfirst, if_neg (by omega)]
    · rw [if_neg hfirst]

/-- The vtable of a table whose only field is an offset in the first place. -/
def oneOffset : List UInt8 := toLittleEndian 2 6 ++ (toLittleEndian 2 8 ++ toLittleEndian 2 4)

/-- The three numbers that `EndTable` writes over the zeros. -/
theorem oneOffset_written {α : Type} {loc off : Nat} (hplace : uoffsetSub loc off = 4)
    (after : List UInt8) (rest : List UInt8 → Except BuildFault α) :
    ((writeScalar (List.replicate 6 0 ++ after) 2 2 8).bind fun buf =>
      (writeScalar buf 0 2 6).bind fun buf => (writeFields loc [⟨off, 4⟩] buf).bind rest)
        = rest (oneOffset ++ after) := by
  have hzeros : List.replicate 6 (0 : UInt8) ++ after = [0, 0] ++ ([0, 0] ++ ([0, 0] ++ after)) :=
    rfl
  have hobject : writeScalar ([0, 0] ++ ([0, 0] ++ ([0, 0] ++ after))) 2 2 8
      = .ok ([0, 0] ++ (toLittleEndian 2 8 ++ ([0, 0] ++ after))) := writeScalar_append rfl rfl
  have hsize : writeScalar ([] ++ ([0, 0] ++ (toLittleEndian 2 8 ++ ([0, 0] ++ after)))) 0 2 6
      = .ok ([] ++ (toLittleEndian 2 6 ++ (toLittleEndian 2 8 ++ ([0, 0] ++ after)))) :=
    writeScalar_append rfl rfl
  have hempty : access (readScalar ((toLittleEndian 2 6 ++ toLittleEndian 2 8) ++ ([0, 0] ++ after))
      (4 : Nat) 2) = .ok (littleEndian [0, 0]) := access_readScalar rfl ⟨_, after, rfl, rfl⟩
  have hslot : writeScalar ((toLittleEndian 2 6 ++ toLittleEndian 2 8) ++ ([0, 0] ++ after))
      (4 : Nat) 2 4
        = .ok ((toLittleEndian 2 6 ++ toLittleEndian 2 8) ++ (toLittleEndian 2 4 ++ after)) :=
    writeScalar_append rfl rfl
  have hzero : littleEndian [0, 0] = 0 := by decide
  rw [hzeros, hobject, ok_bind]
  rw [List.nil_append, List.nil_append] at hsize
  rw [hsize, ok_bind, ← List.append_assoc]
  unfold writeFields assert
  simp only [bind, hempty, ok_bind, hzero, hplace, hslot, if_true]
  unfold oneOffset writeFields
  simp only [ok_bind, List.append_assoc]

/-- `EndTable` writes this vtable for a table with one offset in the first place. -/
theorem writeVtable_eq {start : Nat} (hfield : b.fieldLocs = [⟨start + 4, 4⟩])
    (hslots : b.maxVoffset = 4) :
    b.writeVtable start (start + 8) =
      if b.size < maxBufferSize then
        .ok { b.grow oneOffset with fieldLocs := [], maxVoffset := 0 }
      else .error .assertion := by
  have hobject : uoffsetSub (start + 8) start = 8 := by
    unfold uoffsetSub
    omega
  have hplace : uoffsetSub (start + 8) (start + 4) = 4 := by
    unfold uoffsetSub
    omega
  have hlast : max ((b.maxVoffset + 2) % 0x10000) (fieldIndexToOffset 0) = 6 := by
    rw [hslots]
    rfl
  unfold writeVtable fill assert
  simp only [bind, ite_bind, push_eq, hlast, hobject, hfield, grow, List.length_replicate,
    oneOffset_written hplace, OfNat.ofNat_ne_zero, false_or, pure, Except.pure]
  rfl

/-- Bytes that start with their number, as a vtable does. -/
def IsVtable (vt : List UInt8) : Prop := 2 ≤ vt.length ∧ littleEndian (vt.take 2) = vt.length

/-- At these offsets there are vtables. -/
def Remembers (buf : List UInt8) (vtables : List Nat) : Prop :=
  ∀ vtOffset ∈ vtables, ∃ vt, IsVtable vt ∧ LiesAt buf (dataAt buf vtOffset) vt

theorem Remembers.grow {buf : List UInt8} {vtables : List Nat} (h : Remembers buf vtables)
    (front : List UInt8) : Remembers (front ++ buf) vtables := by
  intro vtOffset hmem
  obtain ⟨vt, hvt, hlies⟩ := h vtOffset hmem
  exact ⟨vt, hvt, hlies.grow front⟩

/-- What a vtable starts with is read as its size. -/
theorem IsVtable.readScalar {vt buf : List UInt8} {p : Int} (hvt : IsVtable vt)
    (h : LiesAt buf p vt) : access (readScalar buf p 2) = .ok vt.length := by
  have hsplit : vt = vt.take 2 ++ vt.drop 2 := (List.take_append_drop 2 vt).symm
  have htwo : (vt.take 2).length = 2 := by
    rw [List.length_take, Nat.min_eq_left hvt.1]
  rw [hsplit] at h
  rw [access_readScalar htwo h.left, hvt.2]

/-- The search for a vtable ends, and what it finds are the same bytes. -/
theorem findVtable_ok {buf : List UInt8} (vt1 : List UInt8) (vtables : List Nat)
    (hvtables : Remembers buf vtables) :
    ∃ found, findVtable buf vt1.length vt1 vtables = .ok found ∧
      ∀ vtOffset, found = some vtOffset →
        vtOffset ∈ vtables ∧ LiesAt buf (dataAt buf vtOffset) vt1 := by
  induction vtables with
  | nil => exact ⟨none, rfl, fun _ h => by cases h⟩
  | cons vtOffset vtOffsets ih =>
      obtain ⟨found, hfound, hsame⟩ := ih (fun v hv => hvtables v (List.mem_cons_of_mem _ hv))
      have hlater : ∀ v, found = some v →
          v ∈ vtOffset :: vtOffsets ∧ LiesAt buf (dataAt buf v) vt1 := by
        intro v hv
        exact ⟨List.mem_cons_of_mem _ (hsame v hv).1, (hsame v hv).2⟩
      obtain ⟨vt2, hvt2, hlies⟩ := hvtables vtOffset List.mem_cons_self
      unfold findVtable
      simp only [bind, hvt2.readScalar hlies, ok_bind]
      by_cases hsize : vt1.length = vt2.length
      · rw [if_neg (not_not.mpr hsize), access_read hsize.symm hlies, ok_bind]
        by_cases hbytes : vt2 = vt1
        · rw [if_neg (not_not.mpr hbytes)]
          refine ⟨some vtOffset, rfl, ?_⟩
          intro v hv
          cases hv
          exact ⟨List.mem_cons_self, hbytes ▸ hlies⟩
        · rw [if_pos hbytes]
          exact ⟨found, hfound, hlater⟩
      · rw [if_pos hsize]
        exact ⟨found, hfound, hlater⟩

theorem isVtable_oneOffset : IsVtable oneOffset := by
  unfold IsVtable
  decide

/-- The open table with one offset in the first place: the table started at `start` and the offset
is at the front. -/
structure OneField (b : FlatBufferBuilder) (start : Nat) : Prop where
  nested : b.nested = true
  field : b.fieldLocs = [⟨start + 4, 4⟩]
  slots : b.maxVoffset = 4
  length : b.buf.length = start + 4
  aligned : start % 4 = 0
  minalign : b.minalign = 4
  small : start + 4 < maxBufferSize

/-- The builder with the vtable of the table at the front and the slot for its distance behind. -/
def withVtable (b : FlatBufferBuilder) : FlatBufferBuilder :=
  { b with
    buf := oneOffset ++ (toLittleEndian 4 0 ++ b.buf)
    fieldLocs := []
    maxVoffset := 0 }

theorem endTable_eq {start : Nat} (h : b.OneField start) :
    b.endTable start =
      if start + 8 < maxBufferSize then b.withVtable.closeTable (start + 8)
      else .error .assertion := by
  have hsmall := h.small
  unfold maxBufferSize at hsmall
  have hlength := h.length
  have haligned : b.buf.length % 4 = 0 := by
    have hstart := h.aligned
    omega
  have hsize : b.size < maxBufferSize := by
    unfold size maxBufferSize
    omega
  have hloc : (b.buf.length + 4) % 0x100000000 = start + 8 := by omega
  have hsame : b.trackMinAlign 4 = b := by
    unfold trackMinAlign
    rw [h.minalign, Nat.max_self, ← h.minalign]
  have hroom : (b.grow (toLittleEndian 4 0)).size = start + 8 := by
    unfold size grow
    rw [List.length_append, length_toLittleEndian]
    omega
  unfold endTable assert
  rw [h.nested, if_pos rfl, pushElement_eq haligned, if_pos hsize, hloc, hsame]
  simp only [bind, ok_bind]
  rw [writeVtable_eq (b := b.grow (toLittleEndian 4 0)) h.field h.slots, hroom, ite_bind]
  rfl

/-- What `useVtable` works on: the buffer with the vtable at the front of the table at `loc`. -/
theorem useVtable_eq {loc : Nat} (after : List UInt8) (hbuf : b.buf = oneOffset ++ after)
    (hloc : after.length = loc) (hsmall : loc + 6 < 0x100000000) :
    b.useVtable loc =
      (findVtable b.buf oneOffset.length oneOffset b.vtables).bind fun found =>
        match found with
        | some vtOffset => .ok ({ b with buf := after }, vtOffset)
        | none => .ok (b, loc + 6) := by
  have hfront : LiesAt b.buf 0 oneOffset := ⟨[], after, hbuf, rfl⟩
  have hsix : oneOffset.length = 6 := rfl
  have hsize : b.size = loc + 6 := by
    unfold size
    rw [hbuf, List.length_append, hloc, hsix]
    omega
  have hpop : uoffsetSub (loc + 6) loc = oneOffset.length := by
    unfold uoffsetSub
    omega
  have hdrop : b.buf.drop oneOffset.length = after := by
    rw [hbuf, List.drop_left]
  unfold useVtable
  simp only [bind, isVtable_oneOffset.readScalar hfront, ok_bind, access_read rfl hfront, hsize,
    hpop, hdrop]
  rfl

/-- The builder with the table closed: `vtable` is what was put before it, and the table starts
with the distance `back` to its vtable. -/
def withTable (b : FlatBufferBuilder) (vtable : List UInt8) (back : Nat) : FlatBufferBuilder :=
  { b with
    buf := vtable ++ (toLittleEndian 4 back ++ b.buf)
    fieldLocs := []
    maxVoffset := 0
    nested := false }

/-- A vtable that is new stays before the table and is remembered. -/
theorem closeTable_new {loc : Nat} (hloc : b.buf.length + 4 = loc)
    (hsmall : loc + 6 < 0x100000000)
    (hfound : findVtable (oneOffset ++ (toLittleEndian 4 0 ++ b.buf)) oneOffset.length oneOffset
      b.vtables = .ok none) :
    b.withVtable.closeTable loc =
      if loc + 6 < maxBufferSize then
        .ok ({ b.withTable oneOffset 6 with vtables := b.vtables ++ [loc + 6] }, loc)
      else .error .assertion := by
  have hlength : (toLittleEndian 4 0 ++ b.buf).length = loc := by
    rw [List.length_append, length_toLittleEndian]
    omega
  have hsix : oneOffset.length = 6 := rfl
  have hsize : b.withVtable.size = loc + 6 := by
    unfold size withVtable
    rw [List.length_append, hlength, hsix]
    omega
  have hback : uoffsetSub (loc + 6) loc = 6 := by
    unfold uoffsetSub
    omega
  have hplace : dataAt b.withVtable.buf loc = oneOffset.length := by
    unfold dataAt withVtable
    rw [List.length_append, hlength]
    omega
  have hwritten : writeScalar b.withVtable.buf oneOffset.length 4 6
      = .ok (oneOffset ++ (toLittleEndian 4 6 ++ b.buf)) :=
    writeScalar_append rfl (length_toLittleEndian 4 0)
  have hsearch : findVtable b.withVtable.buf oneOffset.length oneOffset b.withVtable.vtables
      = .ok none := hfound
  unfold closeTable rememberVtable ensureSpace assert
  rw [useVtable_eq (toLittleEndian 4 0 ++ b.buf) rfl hlength hsmall, hsearch]
  simp only [bind, ok_bind, hsize, if_true, ite_bind, pure, Except.pure, hplace, hback, hwritten]
  rfl

/-- A vtable with the same bytes as one before goes away. -/
theorem closeTable_again {loc vtOffset : Nat} (hloc : b.buf.length + 4 = loc)
    (hsmall : loc + 6 < 0x100000000)
    (hfound : findVtable (oneOffset ++ (toLittleEndian 4 0 ++ b.buf)) oneOffset.length oneOffset
      b.vtables = .ok (some vtOffset)) (hin : vtOffset < loc) :
    b.withVtable.closeTable loc = .ok (b.withTable [] (uoffsetSub vtOffset loc), loc) := by
  have hlength : (toLittleEndian 4 0 ++ b.buf).length = loc := by
    rw [List.length_append, length_toLittleEndian]
    omega
  have hsize : ({ b.withVtable with buf := toLittleEndian 4 0 ++ b.buf } : FlatBufferBuilder).size
      = loc := by
    unfold size
    rw [hlength]
    omega
  have hplace : dataAt (toLittleEndian 4 0 ++ b.buf) loc = ([] : List UInt8).length := by
    unfold dataAt
    rw [hlength, List.length_nil]
    omega
  have hwritten : writeScalar (toLittleEndian 4 0 ++ b.buf) ([] : List UInt8).length 4
      (uoffsetSub vtOffset loc) = .ok (toLittleEndian 4 (uoffsetSub vtOffset loc) ++ b.buf) :=
    @writeScalar_append [] _ _ _ _ _ rfl (length_toLittleEndian 4 0)
  have hsearch : findVtable b.withVtable.buf oneOffset.length oneOffset b.withVtable.vtables
      = .ok (some vtOffset) := hfound
  have hold : vtOffset ≠ loc := by omega
  unfold closeTable rememberVtable
  rw [useVtable_eq (toLittleEndian 4 0 ++ b.buf) rfl hlength hsmall, hsearch]
  simp only [bind, ok_bind, hsize, if_neg hold, hplace, hwritten]
  rfl

/-- A builder whose vtables are all there. -/
structure Building (b : FlatBufferBuilder) : Prop extends Ready b where
  remembers : Remembers b.buf b.vtables

/-- What a string adds to the buffer: its length and its bytes, at an aligned place at the front. -/
structure Stored (b b' : FlatBufferBuilder) (str : List UInt8) (off : Nat) : Prop
    extends Building b' where
  minalign : b'.minalign = 4
  aligned : b'.buf.length % 4 = 0
  atFront : off = b'.buf.length
  grown : ∃ front, b'.buf = front ++ b.buf ∧ front.length ≤ str.length + 8
  lies : LiesAt b'.buf (dataAt b'.buf off) (toLittleEndian 4 str.length ++ str)

theorem Stored.ne_zero {b' : FlatBufferBuilder} {str : List UInt8} {off : Nat}
    (h : Stored b b' str off) : off ≠ 0 := by
  have hle := h.lies.le
  rw [List.length_append, length_toLittleEndian] at hle
  unfold dataAt at hle
  omega

/-- `CreateString`, as long as there is room. -/
theorem createString_ok (hb : Building b) (str : List UInt8)
    (hroom : b.buf.length + (str.length + 8) < maxBufferSize) :
    ∃ b' off, b.createString str = .ok (b', off) ∧ Stored b b' str off := by
  have hpad := length_stringBytes b.buf.length str
  have hlength : (b.grow (toLittleEndian 4 str.length ++ stringBytes b.buf.length str)).buf.length
      = b.buf.length + (stringBytes b.buf.length str).length + 4 := by
    unfold grow
    simp only [List.length_append, length_toLittleEndian]
    omega
  have hshort : str.length < 0x80000000 := by
    unfold maxBufferSize at hroom
    omega
  refine ⟨_, _, (createString_eq hb.toReady (.inl hshort)).trans (if_pos (by omega)), ?_⟩
  refine ⟨⟨⟨hb.closed, hb.noFields, hb.noSlots, hb.unfinished, Nat.le_refl 4, ?small⟩,
    hb.remembers.grow _⟩, rfl, ?aligned, hlength.symm, ⟨_, rfl, ?short⟩, ?lies⟩
  case small =>
    show (b.grow _).buf.length < _
    omega
  case aligned =>
    show (b.grow _).buf.length % 4 = 0
    omega
  case short =>
    rw [List.length_append, length_toLittleEndian]
    omega
  case lies =>
    refine ⟨[], (stringBytes b.buf.length str).drop str.length ++ b.buf, ?_, ?_⟩
    · unfold grow stringBytes
      simp only [List.drop_left, List.append_assoc, List.nil_append]
    · rw [← hlength]
      unfold dataAt
      exact (Int.sub_self _).symm

/-! ### The end of the buffer -/

theorem Ready.notNested (hb : b.Ready) : b.notNested = .ok () := by
  unfold FlatBufferBuilder.notNested assert
  rw [if_pos hb.closed, if_pos hb.noFields]
  rfl

/-- The padding of `Finish` in front of `length` bytes. -/
def finishPadding (length : Nat) : Nat := (4 - (length + 4) % 4) % 4

/-- The builder once `Finish` has aligned it. -/
def alignedToFinish (b : FlatBufferBuilder) : FlatBufferBuilder :=
  { b with
    buf := List.replicate (finishPadding b.buf.length) 0 ++ b.buf
    vtables := [] }

theorem preAlign_finish (hb : b.Ready) (hminalign : b.minalign = 4) :
    ({ b with vtables := [] } : FlatBufferBuilder).preAlign 4 b.minalign =
      if finishPadding b.buf.length = 0 ∨ b.buf.length < maxBufferSize then .ok b.alignedToFinish
      else .error .assertion := by
  have hsize : ({ b with vtables := [] } : FlatBufferBuilder).size = b.buf.length := hb.size_eq
  have hsame : ({ b with vtables := [] } : FlatBufferBuilder).trackMinAlign b.minalign
      = { b with vtables := [] } := by
    unfold trackMinAlign
    rw [Nat.max_self]
  have hpadding : paddingBytes (b.buf.length + 4) b.minalign = finishPadding b.buf.length := by
    rw [hminalign, paddingBytes_four, finishPadding]
  unfold preAlign fill
  rw [if_neg (by decide), hsame, hsize, hpadding, push_eq, hsize, List.length_replicate]
  rfl

/-- `Finish` puts the distance to the root at the start of the buffer. -/
theorem finish_eq (hb : b.Ready) (hminalign : b.minalign = 4) {root : Nat} (hroot : root ≠ 0)
    (hin : root ≤ b.buf.length) :
    b.finish root =
      if b.alignedToFinish.buf.length < maxBufferSize then
        .ok { b.alignedToFinish.grow
            (toLittleEndian 4 (b.alignedToFinish.buf.length - root + 4)) with
          finished := true }
      else .error .assertion := by
  have hsmall := hb.small
  have hlength : b.alignedToFinish.buf.length = finishPadding b.buf.length + b.buf.length := by
    unfold alignedToFinish
    rw [List.length_append, List.length_replicate]
  have hpad : finishPadding b.buf.length = (4 - (b.buf.length + 4) % 4) % 4 := rfl
  have haligned : b.alignedToFinish.buf.length % 4 = 0 := by omega
  have hsame : b.alignedToFinish.trackMinAlign 4 = b.alignedToFinish := by
    unfold trackMinAlign alignedToFinish
    simp only [hminalign, Nat.max_self]
  have hsize : b.alignedToFinish.size = b.alignedToFinish.buf.length := by
    unfold maxBufferSize at hsmall
    unfold size
    omega
  unfold finish assert
  rw [if_pos hb.unfinished, hb.notNested]
  simp only [bind, ok_bind]
  rw [preAlign_finish hb hminalign, ite_bind]
  by_cases hfirst : finishPadding b.buf.length = 0 ∨ b.buf.length < maxBufferSize
  · rw [if_pos hfirst, referTo_eq haligned (by omega) hroot (by omega), hsame, ok_bind,
      pushElement_eq haligned, hsame, ite_bind, hsize]
    rfl
  · rw [if_neg hfirst, if_neg (by omega)]

/-! ### The size of what is finished -/

theorem pushElement_size {b' : FlatBufferBuilder} {element loc : Nat}
    (h : b.pushElement 4 element = .ok (b', loc)) : b'.size < maxBufferSize + 4 := by
  unfold pushElement at h
  simp only [bind, bind_eq_ok, push_eq, length_toLittleEndian, OfNat.ofNat_ne_zero, false_or] at h
  obtain ⟨aligned, -, pushed, hpush, hreturn⟩ := h
  by_cases hroom : aligned.size < maxBufferSize
  · rw [if_pos hroom] at hpush
    cases hpush
    cases hreturn
    unfold size grow at *
    rw [List.length_append, length_toLittleEndian]
    omega
  · rw [if_neg hroom] at hpush
    cases hpush

/-- The last check looks at the size before the last push, so `GetSize()` is at most one push over
the limit, even if it has wrapped before. -/
theorem finish_size {b' : FlatBufferBuilder} {root : Nat} (h : b.finish root = .ok b') :
    b'.size < maxBufferSize + 4 := by
  unfold finish at h
  simp only [bind, bind_eq_ok] at h
  obtain ⟨-, -, -, -, aligned, -, ⟨referred, off⟩, -, ⟨pushed, loc⟩, hpush, hreturn⟩ := h
  have hsize : pushed.size < maxBufferSize + 4 := pushElement_size hpush
  cases hreturn
  exact hsize

end Protocol.Flatbuffers.FlatBufferBuilder
