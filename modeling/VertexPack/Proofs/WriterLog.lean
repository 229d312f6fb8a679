import VertexPack.Proofs.Run
import VertexPack.Proofs.StreamBytes

/-! A writer as a bounded log. After any calls, refused ones among them, the destination holds what
the successful appends have appended, with the bits of the successful patches set, and behind that
what it held before; and each further call fits or is refused with the numbers that say why. -/
namespace VertexPack

inductive Item where
  | byte (b : UInt8)
  | word (v : UInt32)
  | bytes (bs : List UInt8)
  | zeros (n : Nat)

namespace Item

def content : Item → List UInt8
  | byte b => [b]
  | word v => Word.toBytes v
  | bytes bs => bs
  | zeros n => List.replicate n 0

def write : Item → Writing CursorError Unit
  | byte b => Writer.appendByte b
  | word v => Writer.appendWord v
  | bytes bs => Writer.append bs
  | zeros n => Writer.appendZeros n

variable {item : Item} {w : Writer}

theorem write_of_le (h : item.content.length ≤ w.remaining) :
    item.write w = .ok () (w.push item.content) := by
  cases item with
  | byte b => exact Writer.append_of_le h
  | word v => exact Writer.append_of_le h
  | bytes bs => exact Writer.append_of_le h
  | zeros n => exact Writer.appendZeros_of_le (by simpa [content] using h)

theorem write_of_lt (h : w.remaining < item.content.length) :
    item.write w = .error (.overflow item.content.length w.remaining) w := by
  cases item with
  | byte b => exact Writer.append_of_lt h
  | word v => exact Writer.append_of_lt h
  | bytes bs => exact Writer.append_of_lt h
  | zeros n =>
    rw [content, List.length_replicate] at h ⊢
    exact Writer.appendZeros_of_lt h

end Item

/-- A byte with the bits set that are meant for offset `k`. -/
def setBits (patches : List (Nat × UInt8)) (k : Nat) (b : UInt8) : UInt8 :=
  patches.foldl (fun b patch => if patch.1 = k then b ||| patch.2 else b) b

def patched (bs : List UInt8) (patches : List (Nat × UInt8)) : List UInt8 :=
  bs.mapIdx (setBits patches)

section Patches
variable {bs : List UInt8} {patches : List (Nat × UInt8)}

@[simp] theorem patched_length (bs : List UInt8) (patches : List (Nat × UInt8)) :
    (patched bs patches).length = bs.length := List.length_mapIdx

theorem setBits_of_forall_ne {k : Nat} (h : ∀ patch ∈ patches, patch.1 ≠ k) (b : UInt8) :
    setBits patches k b = b := by
  induction patches with
  | nil => rfl
  | cons patch patches ih =>
    rw [setBits, List.foldl_cons, if_neg (h patch List.mem_cons_self), ← setBits]
    exact ih fun p hp => h p (List.mem_cons_of_mem patch hp)

theorem patched_append (h : ∀ patch ∈ patches, patch.1 < bs.length) (more : List UInt8) :
    patched (bs ++ more) patches = patched bs patches ++ more := by
  -- The appended bytes stand at offsets that no patch is meant for.
  have hmore : (more.mapIdx fun i => setBits patches (i + bs.length)) = more := by
    apply List.ext_getElem
    · rw [List.length_mapIdx]
    · intro i hi hi'
      rw [List.getElem_mapIdx]
      refine setBits_of_forall_ne (fun patch hpatch => ?_) _
      have hlt := h patch hpatch
      omega
  exact List.mapIdx_append.trans (congrArg _ hmore)

theorem patched_append_singleton (bs : List UInt8) (patches : List (Nat × UInt8)) (offset : Nat)
    (bits : UInt8) : patched bs (patches ++ [(offset, bits)]) =
      (patched bs patches).modify offset (· ||| bits) := by
  apply List.ext_getElem
  · simp
  · intro i hi hi'
    simp only [patched, List.getElem_modify, List.getElem_mapIdx, setBits, List.foldl_append]
    rfl

end Patches

inductive WriterCall where
  | write (item : Item)
  | reserve (n : Nat)
  | orAt (offset : Nat) (bits : UInt8)
  | ensure (n : Nat)
  | formatByte (format : FormatByte)
  | tail (first : List UInt8)

namespace WriterCall

/-- Makes the call; what is reserved begins at the offset that is given. -/
def perform : WriterCall → Writing FrameError (Option Nat)
  | write item => EStateM.adaptExcept .cursor (item.write >>= fun _ => pure none)
  | reserve n => EStateM.adaptExcept .cursor (Writer.reserve n >>= fun offset => pure (some offset))
  | orAt offset bits => EStateM.adaptExcept .cursor (Writer.orAt offset bits >>= fun _ => pure none)
  | ensure n => EStateM.adaptExcept .cursor (Writer.ensure n >>= fun _ => pure none)
  | formatByte format => format.write >>= fun _ => pure none
  | tail first => Layout.writeTail first >>= fun _ => pure none

def appended : WriterCall → List UInt8
  | write item => item.content
  | reserve n => List.replicate n 0
  | orAt .. | ensure _ => []
  | formatByte format => [format.raw]
  | tail first => DeltaStream.tailBytes first

def patches : WriterCall → List (Nat × UInt8)
  | orAt offset bits => [(offset, bits)]
  | _ => []

def demand : WriterCall → Nat
  | write (.byte _) | formatByte _ => 1
  | write (.word _) => 4
  | write (.bytes bs) => bs.length
  | write (.zeros n) | reserve n | ensure n => n
  | orAt .. => 0
  | tail first => max first.length 32

def refusal (w : Writer) : WriterCall → Option CursorError
  | orAt offset _ =>
    if offset < w.position then none else some (.invalidOffset offset w.position)
  | call => if call.demand ≤ w.remaining then none else some (.overflow call.demand w.remaining)

def answer (w : Writer) : WriterCall → Option Nat
  | reserve _ => some w.position
  | _ => none

def effect (w : Writer) : WriterCall → Writer
  | orAt offset bits => ⟨w.written.modify offset (· ||| bits), w.spare⟩
  | call => w.push call.appended

variable {call : WriterCall} {w : Writer}

theorem demand_write (item : Item) : (write item).demand = item.content.length := by
  cases item with
  | byte b => rfl
  | word v => rfl
  | bytes bs => rfl
  | zeros n => rw [Item.content, List.length_replicate, demand]

theorem appended_length_le (call : WriterCall) : call.appended.length ≤ call.demand := by
  cases call with
  | write item => exact Nat.le_of_eq (demand_write item).symm
  | reserve n => exact Nat.le_of_eq List.length_replicate
  | orAt offset bits => exact Nat.le_refl 0
  | ensure n => exact Nat.zero_le n
  | formatByte format => exact Nat.le_refl 1
  | tail first => exact Nat.le_of_eq (DeltaStream.tailBytes_length first)

theorem of_ite_eq_none {p : Prop} [Decidable p] {e : CursorError}
    (h : (if p then none else some e) = none) : p := by
  by_contra hp
  rw [if_neg hp] at h
  cases h

theorem perform_of_refusal_eq_none (h : call.refusal w = none) :
    call.perform w = .ok (call.answer w) (call.effect w) := by
  cases call with
  | write item =>
    have hroom := of_ite_eq_none h
    rw [demand_write] at hroom
    exact adaptExcept_of_ok (bind_of_ok (Item.write_of_le hroom))
  | reserve n => exact adaptExcept_of_ok (bind_of_ok (Writer.reserve_of_le (of_ite_eq_none h)))
  | orAt offset bits => exact adaptExcept_of_ok (bind_of_ok (Writer.orAt_of_lt (of_ite_eq_none h)))
  | ensure n =>
    change _ = EStateM.Result.ok none (w.push [])
    rw [Writer.push_nil]
    exact adaptExcept_of_ok (bind_of_ok (Writer.ensure_of_le (of_ite_eq_none h)))
  | formatByte format =>
    exact bind_of_ok (DeltaStream.formatByte_write_of_le format (of_ite_eq_none h))
  | tail first =>
    refine bind_of_ok (DeltaStream.writeTail_of_le first ?_)
    rw [DeltaStream.tailBytes_length]
    exact of_ite_eq_none h

theorem perform_of_refusal_eq_some {e : CursorError} (h : call.refusal w = some e) :
    call.perform w = .error (.cursor e) w := by
  cases call with
  | write item =>
    obtain ⟨hroom, ⟨⟩⟩ := Option.ite_none_left_eq_some.1 h
    rw [demand_write] at hroom ⊢
    exact adaptExcept_of_error (bind_of_error (Item.write_of_lt (Nat.lt_of_not_le hroom)))
  | reserve n =>
    obtain ⟨hroom, ⟨⟩⟩ := Option.ite_none_left_eq_some.1 h
    exact adaptExcept_of_error (bind_of_error (Writer.reserve_of_lt (Nat.lt_of_not_le hroom)))
  | orAt offset bits =>
    obtain ⟨hoffset, ⟨⟩⟩ := Option.ite_none_left_eq_some.1 h
    exact adaptExcept_of_error (bind_of_error (Writer.orAt_of_le (Nat.le_of_not_lt hoffset)))
  | ensure n =>
    obtain ⟨hroom, ⟨⟩⟩ := Option.ite_none_left_eq_some.1 h
    exact adaptExcept_of_error (bind_of_error (Writer.ensure_of_lt (Nat.lt_of_not_le hroom)))
  | formatByte format =>
    obtain ⟨hroom, ⟨⟩⟩ := Option.ite_none_left_eq_some.1 h
    exact bind_of_error (adaptExcept_of_error (Writer.append_of_lt (Nat.lt_of_not_le hroom)))
  | tail first =>
    obtain ⟨hroom, ⟨⟩⟩ := Option.ite_none_left_eq_some.1 h
    exact bind_of_error (adaptExcept_of_error
      (bind_of_error (Writer.ensure_of_lt (Nat.lt_of_not_le hroom))))

end WriterCall

/-- The writer holds the log: what its calls append, with the bits that they set, and behind that
what the destination held before. -/
structure Writer.Holds (w : Writer) (destination : List UInt8) (log : List WriterCall) : Prop where
  written_eq : w.written.toList =
    patched (log.flatMap WriterCall.appended) (log.flatMap WriterCall.patches)
  patches_lt : ∀ patch ∈ log.flatMap WriterCall.patches,
    patch.1 < (log.flatMap WriterCall.appended).length
  spare_eq : w.spare = destination.drop w.position
  position_le : w.position ≤ destination.length

namespace Writer
namespace Holds
variable {w : Writer} {destination : List UInt8} {log : List WriterCall}

theorem start (destination : List UInt8) : (ofDestination destination).Holds destination [] where
  written_eq := rfl
  patches_lt := nofun
  spare_eq := rfl
  position_le := Nat.zero_le _

theorem position_eq (h : w.Holds destination log) :
    w.position = (log.flatMap WriterCall.appended).length := by
  rw [Writer.position, ← Array.length_toList, h.written_eq, patched_length]

theorem remaining_eq (h : w.Holds destination log) :
    w.remaining = destination.length - w.position := by
  rw [Writer.remaining, h.spare_eq, List.length_drop]

theorem capacity_eq (h : w.Holds destination log) : w.capacity = destination.length := by
  rw [Writer.capacity, h.remaining_eq]
  exact Nat.add_sub_cancel' h.position_le

theorem drop_destination (h : w.Holds destination log) :
    w.destination.drop w.position = destination.drop w.position := by
  rw [← h.spare_eq, Writer.destination, Writer.position, ← Array.length_toList, List.drop_left]

theorem push (h : w.Holds destination log) {call : WriterCall} (hpatches : call.patches = [])
    (hroom : call.appended.length ≤ w.remaining) :
    (w.push call.appended).Holds destination (log ++ [call]) where
  written_eq := by
    rw [written_push, h.written_eq, List.flatMap_append, List.flatMap_append,
      List.flatMap_singleton, List.flatMap_singleton, hpatches, List.append_nil,
      patched_append h.patches_lt]
  patches_lt := by
    rw [List.flatMap_append, List.flatMap_append, List.flatMap_singleton, List.flatMap_singleton,
      hpatches, List.append_nil, List.length_append]
    exact fun patch hpatch => Nat.lt_add_right _ (h.patches_lt patch hpatch)
  spare_eq := by
    rw [position_push, ← List.drop_drop, ← h.spare_eq]
    rfl
  position_le := by
    rw [position_push]
    have hremaining := h.remaining_eq
    have hposition := h.position_le
    omega

theorem orAt (h : w.Holds destination log) {offset : Nat} (bits : UInt8)
    (hoffset : offset < w.position) :
    Writer.Holds ⟨w.written.modify offset (· ||| bits), w.spare⟩ destination
      (log ++ [.orAt offset bits]) where
  written_eq := by
    rw [List.flatMap_append, List.flatMap_append, List.flatMap_singleton, List.flatMap_singleton,
      WriterCall.appended, List.append_nil, WriterCall.patches, patched_append_singleton,
      ← h.written_eq, Array.toList_modify]
  patches_lt := by
    rw [List.flatMap_append, List.flatMap_append, List.flatMap_singleton, List.flatMap_singleton,
      WriterCall.appended, List.append_nil, WriterCall.patches]
    intro patch hpatch
    rcases List.mem_append.1 hpatch with hpatch | hpatch
    · exact h.patches_lt patch hpatch
    · rw [List.mem_singleton.1 hpatch, ← h.position_eq]
      exact hoffset
  spare_eq := by
    rw [Writer.position, Array.size_modify]
    exact h.spare_eq
  position_le := by
    rw [Writer.position, Array.size_modify]
    exact h.position_le

theorem of_perform_eq_ok (h : w.Holds destination log) {call : WriterCall} {answer : Option Nat}
    {w' : Writer} (hrun : call.perform w = .ok answer w') :
    w'.Holds destination (log ++ [call]) := by
  cases hrefusal : call.refusal w with
  | some e =>
    rw [WriterCall.perform_of_refusal_eq_some hrefusal] at hrun
    cases hrun
  | none =>
    rw [WriterCall.perform_of_refusal_eq_none hrefusal] at hrun
    cases hrun
    have hlength := call.appended_length_le
    cases call with
    | orAt offset bits => exact h.orAt bits (WriterCall.of_ite_eq_none hrefusal)
    | write _ | reserve _ | ensure _ | formatByte _ | tail _ =>
      exact h.push rfl (Nat.le_trans hlength (WriterCall.of_ite_eq_none hrefusal))

theorem of_perform_eq_error (h : w.Holds destination log) {call : WriterCall} {e : FrameError}
    {w' : Writer} (hrun : call.perform w = .error e w') : w'.Holds destination log := by
  cases hrefusal : call.refusal w with
  | some e =>
    rw [WriterCall.perform_of_refusal_eq_some hrefusal] at hrun
    cases hrun
    exact h
  | none =>
    rw [WriterCall.perform_of_refusal_eq_none hrefusal] at hrun
    cases hrun

theorem session (destination : List UInt8) (calls : List WriterCall) :
    (runAll WriterCall.perform calls (ofDestination destination)).2.Holds destination
      ((successes (runAll WriterCall.perform calls (ofDestination destination)).1).map
        Prod.fst) := by
  refine runAll_keeps (fun done w => Holds w destination (done.map Prod.fst)) (fun h hrun => ?_)
    (fun h hrun => h.of_perform_eq_error hrun) (start destination) calls
  rw [List.map_append]
  exact h.of_perform_eq_ok hrun

end Holds

/-- A session of calls leaves a log of the successful ones, and the next call is refused for the
numbers that the log has come to, or succeeds. -/
theorem session_log (destination : List UInt8) (calls : List WriterCall) :
    ∃ transcript w log, runAll WriterCall.perform calls (ofDestination destination) =
        (transcript, w) ∧
      transcript.map Prod.fst = calls ∧ (successes transcript).map Prod.fst = log ∧
      (w.capacity = destination.length ∧ w.position ≤ w.capacity ∧
        w.position = (log.flatMap WriterCall.appended).length) ∧
      w.written.toList =
        patched (log.flatMap WriterCall.appended) (log.flatMap WriterCall.patches) ∧
      w.destination.drop w.position = destination.drop w.position ∧
      ∀ call : WriterCall,
        (call.refusal w = none → ∃ w', call.perform w = .ok (call.answer w) w') ∧
        ∀ e, call.refusal w = some e → call.perform w = .error (.cursor e) w := by
  have h := Holds.session destination calls
  exact ⟨_, _, _, rfl, map_fst_runAll _ _ _, rfl,
    ⟨h.capacity_eq, Nat.le_add_right _ _, h.position_eq⟩, h.written_eq, h.drop_destination,
    fun call => ⟨fun hnone => ⟨_, call.perform_of_refusal_eq_none hnone⟩,
      fun _ hsome => call.perform_of_refusal_eq_some hsome⟩⟩

end Writer
end VertexPack
