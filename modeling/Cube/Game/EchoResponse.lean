/-
The response that the echo handler builds, and what is read back from it.

`HasMessage` is the layout of a response somewhere in a buffer, in distances from the end, so that
it stays true while the builder grows at the front.  A response that is built keeps the messages of
the ones before it, also when it uses the vtable of one of them.  Once the buffer is finished, the
response at its root is a payload that `HoldsMessage` accepts, and so one that the handler itself
can read.
-/
import Cube.Protocol.Building
import Cube.Game.EchoHandler

namespace Game

open Library Core Protocol Protocol.Flatbuffers Protocol.Flatbuffers.FlatBufferBuilder

/-- One response after another in a builder, with the offset of each. -/
def createEchoResponses : FlatBufferBuilder → List (List UInt8) →
    Except BuildFault (FlatBufferBuilder × List Nat)
  | builder, [] => .ok (builder, [])
  | builder, text :: texts => do
      let (builder, messageOffset) ← builder.createString text
      let (builder, echoResponse) ← createEchoResponse builder messageOffset
      let (builder, echoResponses) ← createEchoResponses builder texts
      return (builder, echoResponse :: echoResponses)

/-! ### A response in a buffer -/

/-- At `off` from the end there is a response with this message: the distance to its vtable and the
distance to its string. -/
inductive HasMessage (buf : List UInt8) (off : Nat) (text : List UInt8) : Prop where
  | intro (vtable string : Nat)
      (near : vtable < 0x80000000 + off)
      (far : off < 0x80000000 + vtable)
      (behind : string + 8 ≤ off)
      (slots : LiesAt buf (dataAt buf vtable) oneOffset)
      (table : LiesAt buf (dataAt buf off)
        (toLittleEndian 4 (uoffsetSub vtable off) ++ toLittleEndian 4 (off - 4 - string)))
      (message : LiesAt buf (dataAt buf string) (toLittleEndian 4 text.length ++ text))

theorem HasMessage.grow {buf text : List UInt8} {off : Nat} (h : HasMessage buf off text)
    (front : List UInt8) : HasMessage (front ++ buf) off text := by
  obtain ⟨vtable, string, hnear, hfar, hbehind, hslots, htable, hmessage⟩ := h
  exact ⟨vtable, string, hnear, hfar, hbehind, hslots.grow front, htable.grow front,
    hmessage.grow front⟩

/-- A signed distance between two offsets is read as it was meant. -/
theorem soffset_uoffsetSub {a b : Nat} (hnear : a < 0x80000000 + b) (hfar : b < 0x80000000 + a) :
    soffset (uoffsetSub a b) = (a : Int) - b := by
  have hsub : ((uoffsetSub a b : Nat) : Int) = ((a : Int) - b) % (0x100000000 : Nat) := by
    unfold uoffsetSub
    omega
  unfold soffset
  rw [hsub, Int.emod_bmod]
  exact Int.bmod_eq_of_le (by omega) (by omega)

/-- A buffer that starts with the distance to a response holds the message of the response. -/
theorem HasMessage.holds {buf text : List UInt8} {off : Nat} (h : HasMessage buf off text)
    (hroot : LiesAt buf 0 (toLittleEndian 4 (buf.length - off)))
    (hsmall : buf.length < 0x100000000) (hshort : text.length < 0x100000000) :
    HoldsMessage buf text := by
  obtain ⟨vtable, string, hnear, hfar, hbehind, hslots, htable, hmessage⟩ := h
  have hin : off ≤ buf.length := by
    have hnonneg := htable.nonneg
    unfold dataAt at hnonneg
    omega
  have hplace : dataAt buf off = (buf.length - off : Nat) := by
    unfold dataAt
    omega
  have hvtable : ((buf.length - off : Nat) : Int) - soffset (uoffsetSub vtable off)
      = dataAt buf vtable := by
    rw [soffset_uoffsetSub hnear hfar]
    unfold dataAt
    omega
  have hstring : ((buf.length - off : Nat) : Int) + (4 : Nat) + (off - 4 - string : Nat)
      = dataAt buf string := by
    unfold dataAt
    omega
  have hwide : (256 : Nat) ^ 4 = 0x100000000 := rfl
  rw [hplace] at htable
  refine ⟨buf.length - off, uoffsetSub vtable off, 6, 4, off - 4 - string, ?root, ?vtable, ?size,
    by decide, by decide, ?field, ?string, ?length, ?text⟩
  case root => exact hroot.numberAt (by omega)
  case vtable =>
    apply htable.left.numberAt
    unfold uoffsetSub
    omega
  case size =>
    rw [hvtable]
    exact hslots.left.numberAt (by decide)
  case field =>
    have hfirst := hslots.right.right
    rw [length_toLittleEndian, length_toLittleEndian, Int.add_assoc] at hfirst
    rw [hvtable]
    exact hfirst.numberAt (by decide)
  case string =>
    exact htable.right.numberAt (by omega)
  case length =>
    rw [hstring]
    exact hmessage.left.numberAt (by omega)
  case text =>
    rw [hstring]
    exact hmessage.right

/-! ### Building a response -/

/-- The open table of a response, with its one field. -/
def openResponse (b : FlatBufferBuilder) (message : Nat) : FlatBufferBuilder :=
  ((({ b with nested := true } : FlatBufferBuilder).trackMinAlign 4).grow
    (toLittleEndian 4 (b.buf.length - message + 4))).withField EchoResponse.VT_MESSAGE

theorem openResponse_oneField {b : FlatBufferBuilder} (hb : b.Ready) (hminalign : b.minalign = 4)
    (haligned : b.buf.length % 4 = 0) (hsmall : b.buf.length + 4 < maxBufferSize) (message : Nat) :
    (openResponse b message).OneField b.buf.length := by
  have hlength : (openResponse b message).buf.length = b.buf.length + 4 := by
    unfold openResponse withField grow
    rw [List.length_append, length_toLittleEndian]
    exact Nat.add_comm _ _
  have hfield : (openResponse b message).fieldLocs
      = b.fieldLocs ++ [⟨(openResponse b message).buf.length, EchoResponse.VT_MESSAGE⟩] := rfl
  have hslots : (openResponse b message).maxVoffset
      = max b.maxVoffset EchoResponse.VT_MESSAGE := rfl
  have halign : (openResponse b message).minalign = max b.minalign 4 := rfl
  refine ⟨rfl, ?_, ?_, hlength, haligned, ?_, hsmall⟩
  · rw [hfield, hb.noFields, hlength]
    rfl
  · rw [hslots, hb.noSlots]
    rfl
  · rw [halign, hminalign]
    rfl

/-- `CreateEchoResponse`, up to the choice of the vtable. -/
theorem createEchoResponse_eq {b : FlatBufferBuilder} (hb : b.Ready) (hminalign : b.minalign = 4)
    (haligned : b.buf.length % 4 = 0) {message : Nat} (hmessage : message ≠ 0)
    (hin : message ≤ b.buf.length) :
    createEchoResponse b message =
      if b.buf.length + 8 < maxBufferSize then
        (openResponse b message).withVtable.closeTable (b.buf.length + 8)
      else .error .assertion := by
  unfold createEchoResponse startTable
  rw [hb.notNested]
  simp only [bind, ok_bind, pure, Except.pure, hb.size_eq]
  rw [addOffset_eq (b := { b with nested := true }) haligned hb.small hmessage hin, ite_bind]
  by_cases hroom : b.buf.length + 4 < maxBufferSize
  · rw [if_pos hroom]
    exact endTable_eq (openResponse_oneField hb hminalign haligned hroom message)
  · rw [if_neg hroom, if_neg (by omega)]

theorem openResponse_buf (b : FlatBufferBuilder) (message : Nat) :
    (openResponse b message).buf = toLittleEndian 4 (b.buf.length - message + 4) ++ b.buf := rfl

/-- The table of a response, behind its vtable if it has its own. -/
theorem withTable_table (b : FlatBufferBuilder) (message : Nat) (vtable : List UInt8) (back : Nat) :
    LiesAt ((openResponse b message).withTable vtable back).buf
      (dataAt ((openResponse b message).withTable vtable back).buf (b.buf.length + 8))
      (toLittleEndian 4 back ++ toLittleEndian 4 (b.buf.length - message + 4)) := by
  refine ⟨vtable, b.buf, ?_, ?_⟩
  · unfold withTable
    rw [openResponse_buf, List.append_assoc]
  · unfold withTable dataAt
    rw [openResponse_buf]
    simp only [List.length_append, length_toLittleEndian]
    omega

/-- What a response adds to the buffer: a table that leads to the message and to a vtable, which is
either its own or one that was there. -/
structure Added (b b' : FlatBufferBuilder) (message off : Nat) : Prop extends Building b' where
  minalign : b'.minalign = 4
  place : off = b.buf.length + 8
  grown : ∃ front, b'.buf = front ++ b.buf ∧ front.length ≤ 14
  slots : ∃ vtable, vtable < 0x80000000 + off ∧ off < 0x80000000 + vtable ∧
    LiesAt b'.buf (dataAt b'.buf vtable) oneOffset ∧
      LiesAt b'.buf (dataAt b'.buf off)
        (toLittleEndian 4 (uoffsetSub vtable off) ++ toLittleEndian 4 (off - 4 - message))

theorem withTable_buf (b : FlatBufferBuilder) (message : Nat) (vtable : List UInt8) (back : Nat) :
    ((openResponse b message).withTable vtable back).buf
      = (vtable ++ (toLittleEndian 4 back ++ toLittleEndian 4 (b.buf.length - message + 4)))
          ++ b.buf := by
  unfold withTable
  rw [openResponse_buf]
  simp only [List.append_assoc]

theorem withTable_ready {b : FlatBufferBuilder} (hb : b.Ready) (hminalign : b.minalign = 4)
    (hroom : b.buf.length + 8 < maxBufferSize) (message : Nat) {vtable : List UInt8}
    (hvtable : vtable.length ≤ 6) (back : Nat) :
    Ready ((openResponse b message).withTable vtable back) := by
  have halign : ((openResponse b message).withTable vtable back).minalign = max b.minalign 4 := rfl
  have hunfinished : ((openResponse b message).withTable vtable back).finished = b.finished := rfl
  refine ⟨rfl, rfl, rfl, hunfinished.trans hb.unfinished, ?_, ?_⟩
  · rw [halign, hminalign]
    decide
  · rw [withTable_buf]
    simp only [List.length_append, length_toLittleEndian]
    omega

/-- A response with its own vtable. -/
theorem added_new {b : FlatBufferBuilder} (hb : Building b) (hminalign : b.minalign = 4)
    (hroom : b.buf.length + 14 < maxBufferSize) {message : Nat} (hin : message ≤ b.buf.length) :
    Added b { (openResponse b message).withTable oneOffset 6 with
      vtables := b.vtables ++ [b.buf.length + 14] } message (b.buf.length + 8) := by
  have hready := withTable_ready hb.toReady hminalign (by omega) message
    (show oneOffset.length ≤ 6 by decide) 6
  have hbuf := withTable_buf b message oneOffset 6
  have hsix : oneOffset.length = 6 := rfl
  have hown : LiesAt ((openResponse b message).withTable oneOffset 6).buf
      (dataAt ((openResponse b message).withTable oneOffset 6).buf (b.buf.length + 14))
        oneOffset := by
    refine ⟨[], _, by rw [hbuf, List.append_assoc]; rfl, ?_⟩
    unfold dataAt
    rw [hbuf]
    simp only [List.length_append, List.length_nil, length_toLittleEndian, hsix]
    omega
  have hback : uoffsetSub (b.buf.length + 14) (b.buf.length + 8) = 6 := by
    unfold maxBufferSize at hroom
    unfold uoffsetSub
    omega
  have hdistance : b.buf.length + 8 - 4 - message = b.buf.length - message + 4 := by omega
  refine ⟨⟨⟨hready.1, hready.2, hready.3, hready.4, hready.5, hready.6⟩, ?_⟩, ?_, rfl,
    ⟨_, hbuf, by simp only [List.length_append, length_toLittleEndian, hsix]; omega⟩,
    b.buf.length + 14, by omega, by omega, hown, ?_⟩
  · intro vtOffset hmem
    rcases List.mem_append.mp hmem with hold | hnew
    · have hstill := hb.remembers.grow
        (oneOffset ++ (toLittleEndian 4 6 ++ toLittleEndian 4 (b.buf.length - message + 4)))
      rw [← hbuf] at hstill
      exact hstill vtOffset hold
    · rw [List.mem_singleton.mp hnew]
      exact ⟨oneOffset, isVtable_oneOffset, hown⟩
  · have halign : ((openResponse b message).withTable oneOffset 6).minalign
        = max b.minalign 4 := rfl
    exact halign.trans (by rw [hminalign]; decide)
  · rw [hback, hdistance]
    exact withTable_table b message oneOffset 6

/-- A response with a vtable that was there. -/
theorem added_again {b : FlatBufferBuilder} (hb : Building b) (hminalign : b.minalign = 4)
    (hroom : b.buf.length + 8 < maxBufferSize) {message : Nat} (hin : message ≤ b.buf.length)
    {vtOffset : Nat} (hold : vtOffset ≤ b.buf.length)
    (hsame : LiesAt b.buf (dataAt b.buf vtOffset) oneOffset) :
    Added b ((openResponse b message).withTable [] (uoffsetSub vtOffset (b.buf.length + 8))) message
      (b.buf.length + 8) := by
  have hready := withTable_ready hb.toReady hminalign hroom message
    (show ([] : List UInt8).length ≤ 6 by decide) (uoffsetSub vtOffset (b.buf.length + 8))
  have hbuf := withTable_buf b message [] (uoffsetSub vtOffset (b.buf.length + 8))
  have hdistance : b.buf.length + 8 - 4 - message = b.buf.length - message + 4 := by omega
  have hvtable := hsame.grow ([] ++ (toLittleEndian 4 (uoffsetSub vtOffset (b.buf.length + 8)) ++
    toLittleEndian 4 (b.buf.length - message + 4)))
  have hstill := hb.remembers.grow ([] ++
    (toLittleEndian 4 (uoffsetSub vtOffset (b.buf.length + 8)) ++
      toLittleEndian 4 (b.buf.length - message + 4)))
  rw [← hbuf] at hvtable hstill
  unfold maxBufferSize at hroom
  refine ⟨⟨hready, hstill⟩, ?_, rfl,
    ⟨_, hbuf, by simp only [List.length_append, length_toLittleEndian, List.length_nil]; omega⟩,
    vtOffset, by omega, by omega, hvtable, ?_⟩
  · have halign : ((openResponse b message).withTable []
        (uoffsetSub vtOffset (b.buf.length + 8))).minalign = max b.minalign 4 := rfl
    rw [halign, hminalign]
    rfl
  · rw [hdistance]
    exact withTable_table b message [] _

/-- `CreateEchoResponse`, as long as there is room. -/
theorem createEchoResponse_ok {b : FlatBufferBuilder} (hb : Building b) (hminalign : b.minalign = 4)
    (haligned : b.buf.length % 4 = 0) (hroom : b.buf.length + 14 < maxBufferSize) {message : Nat}
    (hmessage : message ≠ 0) (hin : message ≤ b.buf.length) :
    ∃ b' off, createEchoResponse b message = .ok (b', off) ∧ Added b b' message off := by
  have hlength : (openResponse b message).buf.length + 4 = b.buf.length + 8 := by
    rw [openResponse_buf, List.length_append, length_toLittleEndian]
    omega
  have hsmall : b.buf.length + 8 + 6 < 0x100000000 := by
    unfold maxBufferSize at hroom
    omega
  have hfront : (oneOffset ++ (toLittleEndian 4 0 ++ toLittleEndian 4 (b.buf.length - message + 4)))
      ++ b.buf = oneOffset ++ (toLittleEndian 4 0 ++ (openResponse b message).buf) := by
    rw [openResponse_buf]
    simp only [List.append_assoc]
  obtain ⟨found, hfound, hsame⟩ := findVtable_ok oneOffset b.vtables
    (hb.remembers.grow (oneOffset ++ (toLittleEndian 4 0 ++
      toLittleEndian 4 (b.buf.length - message + 4))))
  rw [createEchoResponse_eq hb.toReady hminalign haligned hmessage hin, if_pos (by omega)]
  cases found with
  | none =>
      rw [hfront] at hfound
      rw [closeTable_new hlength hsmall hfound, if_pos hroom]
      exact ⟨_, _, rfl, added_new hb hminalign hroom hin⟩
  | some vtOffset =>
      obtain ⟨hmem, hlies⟩ := hsame vtOffset rfl
      obtain ⟨vt, _, hthere⟩ := hb.remembers vtOffset hmem
      have hold : vtOffset ≤ b.buf.length := by
        have hnonneg := hthere.nonneg
        unfold dataAt at hnonneg
        omega
      rw [hfront] at hfound
      rw [closeTable_again hlength hsmall hfound (by omega)]
      exact ⟨_, _, rfl, added_again hb hminalign (by omega) hin hold (hlies.shrink hold)⟩

/-! ### Any number of responses -/

/-- What has to be free for these responses. -/
def responsesSize (texts : List (List UInt8)) : Nat := (texts.map fun text => text.length + 22).sum

/-- Each response that was built has its message, whatever is built after it. -/
theorem createEchoResponses_ok {b : FlatBufferBuilder} (hb : Building b) (texts : List (List UInt8))
    (hroom : b.buf.length + responsesSize texts < maxBufferSize) :
    ∃ b' offs, createEchoResponses b texts = .ok (b', offs) ∧ Building b' ∧
      (∃ front, b'.buf = front ++ b.buf ∧ front.length ≤ responsesSize texts) ∧
        List.Forall₂ (HasMessage b'.buf) offs texts ∧
          (b.minalign = 4 ∨ texts ≠ [] → b'.minalign = 4) := by
  induction texts generalizing b with
  | nil =>
      exact ⟨b, [], rfl, hb, ⟨[], rfl, Nat.zero_le _⟩, .nil, fun h => h.elim id (absurd rfl)⟩
  | cons text texts ih =>
      have hsum : responsesSize (text :: texts) = text.length + 22 + responsesSize texts := rfl
      obtain ⟨b₁, message, hstring, hstored⟩ := createString_ok hb text (by omega)
      obtain ⟨front₁, hfront₁, hlen₁⟩ := hstored.grown
      have hgrown₁ : b₁.buf.length = front₁.length + b.buf.length := by
        rw [hfront₁, List.length_append]
      obtain ⟨b₂, off, hresponse, hadded⟩ := createEchoResponse_ok hstored.toBuilding
        hstored.minalign hstored.aligned (by omega) hstored.ne_zero (Nat.le_of_eq hstored.atFront)
      obtain ⟨front₂, hfront₂, hlen₂⟩ := hadded.grown
      have hgrown₂ : b₂.buf.length = front₂.length + b₁.buf.length := by
        rw [hfront₂, List.length_append]
      obtain ⟨b₃, offs, hresponses, hb₃, ⟨front₃, hfront₃, hlen₃⟩, hmessages, hminalign⟩ :=
        ih hadded.toBuilding (by omega)
      have hmessage : HasMessage b₂.buf off text := by
        obtain ⟨vtable, hnear, hfar, hslots, htable⟩ := hadded.slots
        have hplace := hadded.place
        have hfirst := hstored.atFront
        have hlies := hstored.lies.grow front₂
        rw [← hfront₂] at hlies
        exact ⟨vtable, message, hnear, hfar, by omega, hslots, htable, hlies⟩
      have hkept := hmessage.grow front₃
      rw [← hfront₃] at hkept
      refine ⟨b₃, off :: offs, ?_, hb₃, ⟨front₃ ++ (front₂ ++ front₁), ?_, ?_⟩,
        .cons hkept hmessages, fun _ => hminalign (.inl hadded.minalign)⟩
      · unfold createEchoResponses
        simp only [bind, hstring, hresponse, hresponses, ok_bind]
        rfl
      · rw [hfront₃, hfront₂, hfront₁]
        simp only [List.append_assoc]
      · simp only [List.length_append]
        omega

/-- Any response in the buffer can be made the root. -/
theorem finish_holds {b : FlatBufferBuilder} (hb : b.Ready) (hminalign : b.minalign = 4)
    (hroom : b.buf.length + 8 < maxBufferSize) {off : Nat} {text : List UInt8}
    (hmessage : HasMessage b.buf off text) :
    ∃ b' bytes, b.finish off = .ok b' ∧ b'.getBuffer = .ok bytes ∧ bytes.length % 4 = 0 ∧
      HoldsMessage bytes text := by
  obtain ⟨hoff, hin, htext⟩ : 8 ≤ off ∧ off ≤ b.buf.length ∧ text.length ≤ b.buf.length := by
    obtain ⟨vtable, string, _, _, hbehind, _, htable, hstring⟩ := hmessage
    have hnonneg := htable.nonneg
    have hfits := hstring.le
    have hfirst := hstring.nonneg
    rw [List.length_append, length_toLittleEndian] at hfits
    unfold dataAt at *
    omega
  have hlength : b.alignedToFinish.buf.length = finishPadding b.buf.length + b.buf.length := by
    unfold alignedToFinish
    rw [List.length_append, List.length_replicate]
  have hpad : finishPadding b.buf.length = (4 - (b.buf.length + 4) % 4) % 4 := rfl
  have hgrown : ∀ front : List UInt8, (front ++ b.alignedToFinish.buf).length
      = front.length + (finishPadding b.buf.length + b.buf.length) := by
    intro front
    rw [List.length_append, hlength]
  unfold maxBufferSize at hroom
  refine ⟨_, _, (finish_eq hb hminalign (by omega) hin).trans (if_pos ?room),
    getBuffer_eq rfl ?small, ?aligned, ?holds⟩
  case room =>
    unfold maxBufferSize
    omega
  case small =>
    unfold grow
    rw [hgrown, length_toLittleEndian]
    omega
  case aligned =>
    unfold grow
    rw [hgrown, length_toLittleEndian]
    omega
  case holds =>
    have hkept := (hmessage.grow (List.replicate (finishPadding b.buf.length) 0)).grow
      (toLittleEndian 4 (b.alignedToFinish.buf.length - off + 4))
    have hend := hgrown (toLittleEndian 4 (b.alignedToFinish.buf.length - off + 4))
    rw [length_toLittleEndian] at hend
    refine hkept.holds ⟨[], b.alignedToFinish.buf, ?_, rfl⟩
      (Nat.lt_of_le_of_lt (Nat.le_of_eq hend) ?_) (by omega)
    · have hroot : (toLittleEndian 4 (b.alignedToFinish.buf.length - off + 4) ++
          b.alignedToFinish.buf).length - off = b.alignedToFinish.buf.length - off + 4 := by omega
      exact (congrArg (fun n => toLittleEndian 4 n ++ b.alignedToFinish.buf) hroot).symm
    · omega

/-- **Any number of responses can be built and each can be read**: whatever was built before and
after it in the same builder, and whichever vtable it shares. -/
theorem echoResponses_read (texts : List (List UInt8))
    (hroom : responsesSize texts + 8 < maxBufferSize) :
    ∃ b offs, createEchoResponses .init texts = .ok (b, offs) ∧
      List.Forall₂ (fun off text => ∃ b' bytes, b.finish off = .ok b' ∧ b'.getBuffer = .ok bytes ∧
        bytes.length % 4 = 0 ∧ readMessage bytes = .ok text) offs texts := by
  have hempty : FlatBufferBuilder.init.buf.length = 0 := rfl
  have hinit : Building .init := by
    refine ⟨⟨rfl, rfl, rfl, rfl, by decide, by decide⟩, ?_⟩
    intro vtOffset hmem
    cases hmem
  obtain ⟨b, offs, hok, hb, ⟨front, hfront, hlen⟩, hmessages, hminalign⟩ :=
    createEchoResponses_ok hinit texts (by omega)
  have hsmall : b.buf.length ≤ responsesSize texts := by
    rw [hfront, List.length_append]
    exact hlen
  refine ⟨b, offs, hok, ?_⟩
  cases texts with
  | nil =>
      cases hmessages
      exact .nil
  | cons text texts =>
      refine hmessages.imp ?_
      intro off text hmessage
      obtain ⟨b', bytes, hfinish, hbuffer, haligned, hholds⟩ := finish_holds hb.toReady
        (hminalign (.inr (List.cons_ne_nil _ _))) (by omega) hmessage
      exact ⟨b', bytes, hfinish, hbuffer, haligned, readMessage_eq_ok.mpr hholds⟩

/-- Two responses in one builder, the second one with the vtable of the first. -/
theorem echoResponses_read_shared :
    ∃ b offs, createEchoResponses .init [[104, 105], []] = .ok (b, offs) ∧ b.vtables = [22] ∧
      List.Forall₂ (fun off text => ∃ b' bytes, b.finish off = .ok b' ∧ b'.getBuffer = .ok bytes ∧
        bytes.length % 4 = 0 ∧ readMessage bytes = .ok text)
        offs [[104, 105], []] := by
  obtain ⟨b, offs, hok, hread⟩ := echoResponses_read [[104, 105], []] (by decide)
  refine ⟨b, offs, hok, ?_, hread⟩
  have hrun : (createEchoResponses .init [[104, 105], []]).map (fun built => built.1.vtables)
      = .ok [22] := by decide
  rw [hok] at hrun
  exact Except.ok.inj hrun

/-! ### The response of the handler -/

/-- The response to this text: the distance to the table, the vtable behind what aligns it, the
table, and the string. -/
def responseBytes (text : List UInt8) : List UInt8 :=
  toLittleEndian 4 12 ++ ([0, 0] ++ (oneOffset ++ ((toLittleEndian 4 6 ++ toLittleEndian 4 4) ++
    (toLittleEndian 4 text.length ++ stringBytes 0 text))))

theorem length_responseBytes (text : List UInt8) :
    (responseBytes text).length = (stringBytes 0 text).length + 24 := by
  have hsix : oneOffset.length = 6 := rfl
  unfold responseBytes
  simp only [List.length_append, length_toLittleEndian, List.length_cons, List.length_nil, hsix]
  omega

/-- A new builder with the string of the response. -/
def withMessage (text : List UInt8) : FlatBufferBuilder :=
  { FlatBufferBuilder.init.grow (toLittleEndian 4 text.length ++ stringBytes 0 text) with
    minalign := 4 }

theorem withMessage_length (text : List UInt8) :
    (withMessage text).buf.length = (stringBytes 0 text).length + 4 := by
  have hempty : FlatBufferBuilder.init.buf.length = 0 := rfl
  unfold withMessage grow
  simp only [List.length_append, length_toLittleEndian, hempty]
  omega

theorem withMessage_ready {text : List UInt8}
    (hroom : (stringBytes 0 text).length < maxBufferSize) : (withMessage text).Ready := by
  refine ⟨rfl, rfl, rfl, rfl, Nat.le_refl 4, ?_⟩
  rw [withMessage_length]
  omega

/-- The builder with the table of the response. -/
def withResponse (text : List UInt8) : FlatBufferBuilder :=
  { (openResponse (withMessage text) (withMessage text).buf.length).withTable oneOffset 6 with
    vtables := [(withMessage text).buf.length + 14] }

theorem withResponse_length (text : List UInt8) :
    (withResponse text).buf.length = (stringBytes 0 text).length + 18 := by
  have hbuf : (withResponse text).buf = _ := withTable_buf (withMessage text) _ oneOffset 6
  have hsix : oneOffset.length = 6 := rfl
  rw [hbuf]
  simp only [List.length_append, length_toLittleEndian, withMessage_length, hsix]
  omega

/-- The only table of a new builder has its own vtable. -/
theorem createEchoResponse_first {text : List UInt8}
    (hroom : (stringBytes 0 text).length < maxBufferSize)
    (haligned : (stringBytes 0 text).length % 4 = 0) :
    createEchoResponse (withMessage text) (withMessage text).buf.length =
      if (stringBytes 0 text).length + 18 < maxBufferSize then
        .ok (withResponse text, (stringBytes 0 text).length + 12)
      else .error .assertion := by
  have hlength := withMessage_length text
  have hloc : (openResponse (withMessage text) (withMessage text).buf.length).buf.length + 4
      = (stringBytes 0 text).length + 12 := by
    rw [openResponse_buf, List.length_append, length_toLittleEndian]
    omega
  rw [createEchoResponse_eq (withMessage_ready hroom) rfl (by omega) (by omega) (Nat.le_refl _)]
  unfold maxBufferSize at *
  by_cases hfirst : (withMessage text).buf.length + 8 < 0x7fffffff
  · have hplace : (withMessage text).buf.length + 8 = (stringBytes 0 text).length + 12 := by omega
    rw [if_pos hfirst, hplace, closeTable_new hloc (by omega) rfl]
    unfold withResponse
    rw [hlength]
    rfl
  · rw [if_neg hfirst, if_neg (by omega)]

theorem withResponse_ready {text : List UInt8}
    (hroom : (stringBytes 0 text).length + 12 < maxBufferSize) : (withResponse text).Ready := by
  refine ⟨rfl, rfl, rfl, rfl, Nat.le_refl 4, ?_⟩
  rw [withResponse_length]
  omega

/-- What `Finish` makes of it. -/
theorem finish_withResponse {text : List UInt8}
    (hroom : (stringBytes 0 text).length + 12 < maxBufferSize)
    (haligned : (stringBytes 0 text).length % 4 = 0) :
    ((withResponse text).finish ((stringBytes 0 text).length + 12)).bind
        FlatBufferBuilder.getBuffer =
      if (stringBytes 0 text).length + 20 < maxBufferSize then .ok (responseBytes text)
      else .error .assertion := by
  have hlength := withResponse_length text
  have hpad : finishPadding (withResponse text).buf.length = 2 := by
    unfold finishPadding
    omega
  have haligned : (withResponse text).alignedToFinish.buf.length
      = (stringBytes 0 text).length + 20 := by
    unfold alignedToFinish
    rw [List.length_append, List.length_replicate, hpad, hlength]
    omega
  have hroot : (stringBytes 0 text).length + 20 - ((stringBytes 0 text).length + 12) + 4 = 12 := by
    omega
  rw [finish_eq (withResponse_ready hroom) rfl (by omega) (by omega), haligned, hroot, ite_bind]
  have hbytes : ((withResponse text).alignedToFinish.grow (toLittleEndian 4 12)).buf
      = responseBytes text := by
    have hbuf : (withResponse text).buf = _ := withTable_buf (withMessage text) _ oneOffset 6
    have hempty : FlatBufferBuilder.init.buf = [] := rfl
    unfold alignedToFinish grow
    rw [hpad, hbuf, Nat.sub_self, Nat.zero_add]
    unfold responseBytes withMessage grow
    simp only [hempty, List.append_assoc, List.append_nil]
    rfl
  by_cases hfits : (stringBytes 0 text).length + 20 < maxBufferSize
  · have hsmall : ((withResponse text).alignedToFinish.grow (toLittleEndian 4 12)).buf.length
        < 0x100000000 := by
      rw [hbytes, length_responseBytes]
      unfold maxBufferSize at hfits
      omega
    rw [if_pos hfits, if_pos hfits, ← hbytes]
    exact getBuffer_eq rfl hsmall
  · rw [if_neg hfits, if_neg hfits]

/-- **The response, byte by byte**: a text of up to two gigabytes less 25 bytes is built into these
bytes, and a longer one fails an assertion. -/
theorem respond_eq {text : List UInt8} (hshort : text.length < 0xfffffffc) :
    (EchoHandler.respond text).bind FlatBufferBuilder.getBuffer =
      if text.length ≤ 0x7fffffe7 then .ok (responseBytes text) else .error .assertion := by
  have hready : FlatBufferBuilder.init.Ready := ⟨rfl, rfl, rfl, rfl, by decide, by decide⟩
  have hempty : FlatBufferBuilder.init.buf.length = 0 := rfl
  have hpad := length_stringBytes 0 text
  have hlength := withMessage_length text
  have hstring : FlatBufferBuilder.init.createString text =
      if (stringBytes 0 text).length < maxBufferSize then
        .ok (withMessage text, (withMessage text).buf.length)
      else .error .assertion := by
    rw [createString_eq hready (.inr (by omega)), hempty, Nat.zero_add, hlength]
    rfl
  unfold EchoHandler.respond
  rw [hstring]
  simp only [bind, ite_bind]
  by_cases hfirst : (stringBytes 0 text).length < maxBufferSize
  · rw [if_pos hfirst, createEchoResponse_first hfirst (by omega), ite_bind]
    by_cases hsecond : (stringBytes 0 text).length + 18 < maxBufferSize
    · rw [if_pos hsecond, finish_withResponse (by omega) (by omega)]
      unfold maxBufferSize at *
      by_cases hthird : text.length ≤ 0x7fffffe7
      · rw [if_pos hthird, if_pos (by omega)]
      · rw [if_neg hthird, if_neg (by omega)]
    · unfold maxBufferSize at *
      rw [if_neg hsecond, if_neg (by omega)]
      rfl
  · unfold maxBufferSize at *
    rw [if_neg hfirst, if_neg (by omega)]
    rfl

/-- The response has the layout of a request with the same message. -/
theorem responseBytes_holds {text : List UInt8} (hshort : text.length ≤ 0x7fffffe7) :
    HoldsMessage (responseBytes text) text := by
  have hlength := length_responseBytes text
  have hpad := length_stringBytes 0 text
  have hsix : oneOffset.length = 6 := rfl
  have hback : uoffsetSub ((stringBytes 0 text).length + 18) ((stringBytes 0 text).length + 12)
      = 6 := by
    unfold uoffsetSub
    omega
  have hdistance : (stringBytes 0 text).length + 12 - 4 - ((stringBytes 0 text).length + 4) = 4 :=
    by omega
  have hslots : LiesAt (responseBytes text)
      (dataAt (responseBytes text) ((stringBytes 0 text).length + 18)) oneOffset := by
    refine ⟨toLittleEndian 4 12 ++ [0, 0], (toLittleEndian 4 6 ++ toLittleEndian 4 4) ++
      (toLittleEndian 4 text.length ++ stringBytes 0 text), ?_, ?_⟩
    · unfold responseBytes
      simp only [List.append_assoc]
    · unfold dataAt
      rw [hlength, List.length_append, length_toLittleEndian, List.length_cons,
        List.length_singleton]
      omega
  have htable : LiesAt (responseBytes text)
      (dataAt (responseBytes text) ((stringBytes 0 text).length + 12))
        (toLittleEndian 4 6 ++ toLittleEndian 4 4) := by
    refine ⟨toLittleEndian 4 12 ++ ([0, 0] ++ oneOffset),
      toLittleEndian 4 text.length ++ stringBytes 0 text, ?_, ?_⟩
    · unfold responseBytes
      simp only [List.append_assoc]
    · unfold dataAt
      simp only [hlength, List.length_append, length_toLittleEndian, List.length_cons,
        List.length_nil, hsix]
      omega
  have hstring : LiesAt (responseBytes text)
      (dataAt (responseBytes text) ((stringBytes 0 text).length + 4))
        (toLittleEndian 4 text.length ++ text) := by
    refine ⟨toLittleEndian 4 12 ++ ([0, 0] ++ (oneOffset ++
      (toLittleEndian 4 6 ++ toLittleEndian 4 4))), (stringBytes 0 text).drop text.length, ?_, ?_⟩
    · unfold responseBytes stringBytes
      simp only [List.drop_left, List.append_assoc]
    · unfold dataAt
      simp only [hlength, List.length_append, length_toLittleEndian, List.length_cons,
        List.length_nil, hsix]
      omega
  have hmessage : HasMessage (responseBytes text) ((stringBytes 0 text).length + 12) text := by
    refine ⟨_, _, by omega, by omega, by omega, hslots, ?_, hstring⟩
    rw [hback, hdistance]
    exact htable
  have hroot : (responseBytes text).length - ((stringBytes 0 text).length + 12) = 12 := by omega
  refine hmessage.holds ?_ (by omega) (by omega)
  rw [hroot]
  exact ⟨[], _, rfl, rfl⟩

end Game
