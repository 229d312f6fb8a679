import VertexPack.Proofs.Words
import VertexPack.Proofs.WriterLog

/-! Sessions of a reader. What a session of plain writes has written, the matching reads give back
and stand behind it. Whatever is read, the successful reads have given the source up to the
position, and a refused read has changed nothing. -/
namespace VertexPack

inductive ReadCall where
  | byte
  | word
  | bytes (n : Nat)
  deriving DecidableEq

inductive ReadValue where
  | byte (b : UInt8)
  | word (v : UInt32)
  | bytes (bs : List UInt8)
  deriving DecidableEq

namespace ReadValue

def content : ReadValue → List UInt8
  | byte b => [b]
  | word v => Word.toBytes v
  | bytes bs => bs

def call : ReadValue → ReadCall
  | byte _ => .byte
  | word _ => .word
  | bytes bs => .bytes bs.length

end ReadValue

namespace ReadCall

def read : ReadCall → Reading CursorError ReadValue
  | byte => Reader.byte >>= fun b => pure (.byte b)
  | word => Reader.word >>= fun v => pure (.word v)
  | bytes n => Reader.take n >>= fun bs => pure (.bytes bs.1)

def width : ReadCall → Nat
  | byte => 1
  | word => 4
  | bytes n => n

theorem reads (call : ReadCall) {h : Nat} :
    Reads h call.read fun value bs => value.call = call ∧ value.content = bs := by
  cases call with
  | byte =>
    refine (Reads.byte.map (f := ReadValue.byte)).congr fun value bs => ⟨?_, ?_⟩
    · rintro ⟨b, rfl, rfl⟩
      exact ⟨rfl, rfl⟩
    · rintro ⟨hcall, rfl⟩
      cases value with
      | byte b => exact ⟨b, rfl, rfl⟩
      | word _ | bytes _ => cases hcall
  | word =>
    refine (Reads.word.map (f := ReadValue.word)).congr fun value bs => ⟨?_, ?_⟩
    · rintro ⟨v, rfl, rfl⟩
      exact ⟨rfl, rfl⟩
    · rintro ⟨hcall, rfl⟩
      cases value with
      | word v => exact ⟨v, rfl, rfl⟩
      | byte _ | bytes _ => cases hcall
  | bytes n =>
    refine ((Reads.take n).map (f := fun bs => ReadValue.bytes bs.1)).congr
      fun value bs => ⟨?_, ?_⟩
    · rintro ⟨⟨bs, rfl⟩, rfl, rfl⟩
      exact ⟨rfl, rfl⟩
    · rintro ⟨hcall, rfl⟩
      cases value with
      | bytes bs =>
        cases hcall
        exact ⟨⟨bs, rfl⟩, rfl, rfl⟩
      | byte _ | word _ => cases hcall

variable {call : ReadCall} {r : Reader}

theorem read_of_lt (h : r.remaining < call.width) :
    call.read r = .error (.unexpectedEnd call.width r.remaining) r := by
  cases call with
  | byte => exact bind_of_error (bind_of_error (Reader.take_of_lt h))
  | word => exact bind_of_error (bind_of_error (Reader.take_of_lt h))
  | bytes n => exact bind_of_error (Reader.take_of_lt h)

theorem exists_read_eq_ok (h : call.width ≤ r.remaining) :
    ∃ value r', call.read r = .ok value r' := by
  cases call with
  | byte => exact ⟨_, _, bind_of_ok (bind_of_ok (Reader.take_of_le h))⟩
  | word => exact ⟨_, _, bind_of_ok (bind_of_ok (Reader.take_of_le h))⟩
  | bytes n => exact ⟨_, _, bind_of_ok (Reader.take_of_le h)⟩

end ReadCall

namespace Item

def value : Item → ReadValue
  | byte b => .byte b
  | word v => .word v
  | bytes bs => .bytes bs
  | zeros n => .bytes (List.replicate n 0)

def readBack : Item → ReadCall
  | byte _ => .byte
  | word _ => .word
  | bytes bs => .bytes bs.length
  | zeros n => .bytes n

theorem call_value (item : Item) : item.value.call = item.readBack := by
  cases item with
  | zeros n => rw [value, ReadValue.call, List.length_replicate, readBack]
  | byte _ | word _ | bytes _ => rfl

theorem content_value (item : Item) : item.value.content = item.content := by
  cases item <;> rfl

theorem read_readBack {item : Item} {r r' : Reader} (h : r.Moves item.content r') :
    item.readBack.read r = .ok item.value r' :=
  item.readBack.reads.complete ⟨item.call_value, item.content_value⟩ h (Nat.zero_le _)

end Item

theorem runAll_readBack (items : List Item) {r r' : Reader}
    (h : r.Moves (items.flatMap Item.content) r') :
    runAll ReadCall.read (items.map Item.readBack) r =
      (items.map fun item => (item.readBack, .ok item.value), r') := by
  induction items generalizing r with
  | nil => rw [h.eq_of_nil]; rfl
  | cons item items ih =>
    rw [List.flatMap_cons] at h
    obtain ⟨r₁, hfirst, hrest⟩ := h.split
    rw [List.map_cons, runAll_cons_of_ok (Item.read_readBack hfirst), ih hrest, List.map_cons]

theorem of_runAll_write_eq {items : List Item} {w w' : Writer}
    (h : runAll Item.write items w = (items.map fun item => (item, .ok ()), w')) :
    w' = w.push (items.flatMap Item.content) := by
  induction items generalizing w with
  | nil =>
    cases h
    rw [List.flatMap_nil, Writer.push_nil]
  | cons item items ih =>
    by_cases hroom : item.content.length ≤ w.remaining
    · rw [runAll_cons_of_ok (Item.write_of_le hroom), List.map_cons, Prod.mk.injEq,
        List.cons.injEq] at h
      rw [ih (Prod.ext h.1.2 h.2), Writer.push_push, List.flatMap_cons]
    · -- The refusal would stand first in what the session ended with.
      rw [runAll_cons_of_error (Item.write_of_lt (Nat.lt_of_not_le hroom))] at h
      cases h

/-- What a session of reads has given is the source up to the position of the reader, each read its
own value. -/
structure Reader.Took (r : Reader) (data : List UInt8) (done : List (ReadCall × ReadValue)) :
    Prop where
  moves : (Reader.ofBytes data).Moves (done.flatMap fun read => read.2.content) r
  call_eq : ∀ read ∈ done, read.2.call = read.1

namespace Reader.Took
variable {r r' : Reader} {data : List UInt8} {done : List (ReadCall × ReadValue)}

theorem start (data : List UInt8) : (ofBytes data).Took data [] where
  moves := moves_nil _
  call_eq := nofun

theorem position_le (h : r.Took data done) : r.position ≤ data.length := by
  rw [position, h.moves.data_eq]
  exact Nat.sub_le _ _

theorem remaining_eq (h : r.Took data done) : r.remaining = data.length - r.position := by
  have hsum := r.position_add_remaining
  rw [h.moves.data_eq] at hsum
  change _ = data.length at hsum
  omega

theorem content_eq (h : r.Took data done) :
    (done.flatMap fun read => read.2.content) = data.take r.position := by
  have hrest : data = (done.flatMap fun read => read.2.content) ++ r.rest := h.moves.rest_eq
  have hposition : r.position = (done.flatMap fun read => read.2.content).length := by
    rw [position, h.moves.data_eq]
    change data.length - _ = _
    rw [hrest]
    simp
  rw [hposition, hrest, List.take_left]

theorem of_read_eq_ok (h : r.Took data done) {call : ReadCall} {value : ReadValue}
    (hrun : call.read r = .ok value r') : r'.Took data (done ++ [(call, value)]) := by
  obtain ⟨_, ⟨hcall, rfl⟩, hmoves⟩ := (call.reads (h := 0)).sound hrun
  constructor
  · rw [List.flatMap_append, List.flatMap_singleton]
    exact h.moves.trans hmoves
  · intro read hread
    rcases List.mem_append.1 hread with hread | hread
    · exact h.call_eq read hread
    · rw [List.mem_singleton.1 hread, hcall]

theorem of_read_eq_error (h : r.Took data done) {call : ReadCall} {e : CursorError}
    (hrun : call.read r = .error e r') : r'.Took data done := by
  by_cases hroom : call.width ≤ r.remaining
  · obtain ⟨_, _, hok⟩ := ReadCall.exists_read_eq_ok hroom
    cases hrun.symm.trans hok
  · rw [ReadCall.read_of_lt (Nat.lt_of_not_le hroom)] at hrun
    cases hrun
    exact h

theorem session (data : List UInt8) (calls : List ReadCall) :
    (runAll ReadCall.read calls (ofBytes data)).2.Took data
      (successes (runAll ReadCall.read calls (ofBytes data)).1) :=
  runAll_keeps (fun done r => Took r data done) (fun h hrun => h.of_read_eq_ok hrun)
    (fun h hrun => h.of_read_eq_error hrun) (start data) calls

theorem tail_eq (h : r.Took data done) (n : Nat) : r.tail n =
    if n ≤ data.length then .ok (data.drop (data.length - n))
    else .error (.unexpectedEnd n data.length) := by
  rw [tail, h.moves.data_eq]
  rfl

end Reader.Took

/-- A session of reads mirrors one of plain writes; and any session of reads gives the source up to
where it has come, and nothing else moves it. -/
theorem sessions_mirror {items : List Item} {w w' : Writer}
    (hwrite : runAll Item.write items w = (items.map fun item => (item, .ok ()), w'))
    (suffix data : List UInt8) (calls : List ReadCall) :
    (∃ r, runAll ReadCall.read (items.map Item.readBack)
        (.ofBytes (w'.written.toList.drop w.position ++ suffix)) =
          (items.map fun item => (item.readBack, .ok item.value), r) ∧
      r.rest = suffix ∧ r.position = w'.position - w.position) ∧
    ∃ transcript r, runAll ReadCall.read calls (.ofBytes data) = (transcript, r) ∧
      transcript.map Prod.fst = calls ∧
      r.position ≤ data.length ∧ r.remaining = data.length - r.position ∧
      ((successes transcript).flatMap fun read => read.2.content) = data.take r.position ∧
      (∀ read ∈ successes transcript, read.2.call = read.1) ∧
      (∀ call : ReadCall,
        (call.width ≤ r.remaining → ∃ value r', call.read r = .ok value r') ∧
        (r.remaining < call.width →
          call.read r = .error (.unexpectedEnd call.width r.remaining) r)) ∧
      ∀ n, r.tail n = if n ≤ data.length then .ok (data.drop (data.length - n))
        else .error (.unexpectedEnd n data.length) := by
  constructor
  · have hw' := of_runAll_write_eq hwrite
    have hdrop : w'.written.toList.drop w.position = items.flatMap Item.content := by
      rw [hw', Writer.written_push, Writer.position, ← Array.length_toList, List.drop_left]
    obtain ⟨r, hmoves, hrest⟩ := Reader.exists_moves
      (r := .ofBytes (items.flatMap Item.content ++ suffix)) rfl
    rw [hdrop]
    refine ⟨r, runAll_readBack items hmoves, hrest, ?_⟩
    rw [Reader.position, hmoves.data_eq, hrest, hw', Writer.position_push]
    simp [Reader.ofBytes]
  · have h := Reader.Took.session data calls
    exact ⟨_, _, rfl, map_fst_runAll _ _ _, h.position_le, h.remaining_eq, h.content_eq,
      h.call_eq, fun call => ⟨ReadCall.exists_read_eq_ok, ReadCall.read_of_lt⟩, h.tail_eq⟩

theorem sessions_mirror_three_items :
    (∃ w' r, runAll Item.write [.byte 7, .word 0x04030201, .zeros 2]
        (.ofDestination (List.replicate 8 255)) =
          ([(.byte 7, .ok ()), (.word 0x04030201, .ok ()), (.zeros 2, .ok ())], w') ∧
      runAll ReadCall.read [.byte, .word, .bytes 2] (.ofBytes (w'.written.toList ++ [9])) =
        ([(.byte, .ok (.byte 7)), (.word, .ok (.word 0x04030201)),
          (.bytes 2, .ok (.bytes [0, 0]))], r) ∧ r.rest = [9]) ∧
    ∃ transcript r, runAll ReadCall.read [.byte, .bytes 5, .word] (.ofBytes [1, 2, 3, 4, 5]) =
        (transcript, r) ∧
      ((successes transcript).flatMap fun read => read.2.content) =
        [1, 2, 3, 4, 5].take r.position ∧ r.tail 2 = .ok [4, 5] := by
  have hwrite : runAll Item.write [.byte 7, .word 0x04030201, .zeros 2]
      (.ofDestination (List.replicate 8 255)) =
        ([(.byte 7, .ok ()), (.word 0x04030201, .ok ()), (.zeros 2, .ok ())], _) := rfl
  obtain ⟨⟨r, hread, hrest, _⟩, transcript, r', hrun, _, _, _, hcontent, _, _, htail⟩ :=
    @sessions_mirror [.byte 7, .word 0x04030201, .zeros 2] _ _ hwrite [9] [1, 2, 3, 4, 5]
      [.byte, .bytes 5, .word]
  exact ⟨⟨_, r, hwrite, hread, hrest⟩, transcript, r', hrun, hcontent, htail 2⟩

end VertexPack
