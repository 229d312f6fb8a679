import VertexPack.Account
import VertexPack.Proofs.Entries
import Mathlib.Algebra.BigOperators.Group.List.Basic
import Mathlib.Algebra.BigOperators.Ring.List
import Mathlib.Algebra.Order.BigOperators.Group.List
import Mathlib.Algebra.Order.Group.Nat
import Mathlib.Data.List.GetD

/-! What an account holds after a list of events: every total of a channel is what it was before
and the sum of what the events of that channel add to it. -/
namespace VertexPack

namespace Event

def channel? : Event → Option Nat
  | header k _ | group k _ _ | consistency k _ _ | channel k _ => some k
  | stream _ _ => none

theorem exists_stream_of_channel {e : Event} (h : e.channel? = none) :
    ∃ count total, e = stream count total := by
  cases e with
  | stream count total => exact ⟨count, total, rfl⟩
  | header _ _ | group _ _ _ | consistency _ _ _ | channel _ _ => cases h

def change : Event → ChannelAccount → ChannelAccount
  | header _ bytes => .addHeader bytes
  | group _ width bytes => .addGroup width bytes
  | consistency _ shared values => .addConsistency shared values
  | channel _ bytes => .addBytes bytes
  | stream _ _ => id

def sized : Event → Nat
  | channel _ bytes => bytes
  | header _ _ | group _ _ _ | consistency _ _ _ | stream _ _ => 0

def counted : Event → Nat
  | header _ bytes | group _ _ bytes => bytes
  | consistency _ _ _ | channel _ _ | stream _ _ => 0

def headed : Event → Nat
  | header _ bytes => bytes
  | group _ _ _ | consistency _ _ _ | channel _ _ | stream _ _ => 0

def storedAt (code : Fin 4) : Event → Nat
  | group _ width bytes => if code.val = width.code then bytes else 0
  | header _ _ | consistency _ _ _ | channel _ _ | stream _ _ => 0

def groupedAt (code : Fin 4) : Event → Nat
  | group _ width _ => if code.val = width.code then 1 else 0
  | header _ _ | consistency _ _ _ | channel _ _ | stream _ _ => 0

def grouped : Event → Nat
  | group _ _ _ => 1
  | header _ _ | consistency _ _ _ | channel _ _ | stream _ _ => 0

def valued : Event → Nat
  | consistency _ _ values => values
  | header _ _ | group _ _ _ | channel _ _ | stream _ _ => 0

def sharing (b : Nat) : Event → Nat
  | consistency _ shared values => if shared.toBitVec.getLsbD b then values else 0
  | header _ _ | group _ _ _ | channel _ _ | stream _ _ => 0

theorem sharing_le_valued (e : Event) (b : Nat) : e.sharing b ≤ e.valued := by
  cases e with
  | consistency k shared values =>
    rw [sharing]
    split
    · exact Nat.le_refl values
    · exact Nat.zero_le values
  | header _ _ | group _ _ _ | channel _ _ | stream _ _ => exact Nat.le_refl 0

/-- A group that is reported has a size for which its width is chosen. -/
def Holds : Event → Prop
  | group _ width bytes => width.Holds bytes
  | header _ _ | consistency _ _ _ | channel _ _ | stream _ _ => True

def reach (e : Event) : Nat := e.channel?.elim 0 (· + 1)

end Event

namespace Width

theorem code_lt (w : Width) : w.code < 4 := by
  cases w <;> decide

theorem code_inj {w w' : Width} : w.code = w'.code ↔ w = w' := by
  cases w <;> cases w' <;> decide

def place (w : Width) : Fin 4 := ⟨w.code, w.code_lt⟩

end Width
namespace Event

theorem counted_eq (e : Event) :
    e.counted = e.headed + (e.storedAt 0 + e.storedAt 1 + e.storedAt 2 + e.storedAt 3) := by
  cases e with
  | group k width bytes => cases width <;> simp [counted, headed, storedAt, Width.code]
  | header _ _ | consistency _ _ _ | channel _ _ | stream _ _ => rfl

theorem grouped_eq (e : Event) :
    e.grouped = e.groupedAt 0 + e.groupedAt 1 + e.groupedAt 2 + e.groupedAt 3 := by
  cases e with
  | group k width bytes => cases width <;> rfl
  | header _ _ | consistency _ _ _ | channel _ _ | stream _ _ => rfl

theorem Holds.storedAt {e : Event} (h : e.Holds) (w : Width) :
    w.least * e.groupedAt w.place ≤ e.storedAt w.place ∧
      e.storedAt w.place ≤ w.most * e.groupedAt w.place := by
  cases e with
  | group k width bytes =>
    change w.least * (if w.code = width.code then 1 else 0) ≤
        (if w.code = width.code then bytes else 0) ∧
      (if w.code = width.code then bytes else 0) ≤
        w.most * (if w.code = width.code then 1 else 0)
    by_cases hw : w = width
    · subst hw
      rw [if_pos rfl, if_pos rfl, Nat.mul_one, Nat.mul_one]
      exact h
    · have hcode := mt Width.code_inj.1 hw
      rw [if_neg hcode, if_neg hcode]
      exact ⟨Nat.le_refl 0, Nat.le_refl 0⟩
  | header _ _ | consistency _ _ _ | channel _ _ | stream _ _ =>
    exact ⟨Nat.le_refl 0, Nat.zero_le _⟩

end Event
namespace ChannelAccount
variable {c c' c₁ c₂ : ChannelAccount} {es es' : List Event}

/-- The totals `c'` are those of `c` and the sums of what the events add to them. -/
structure Adds (c c' : ChannelAccount) (es : List Event) : Prop where
  size : c'.size = c.size + (es.map Event.sized).sum
  header : c'.header = c.header + (es.map Event.headed).sum
  groupBytes : ∀ code : Fin 4,
    c'.groupBytes.get code = c.groupBytes.get code + (es.map (Event.storedAt code)).sum
  groupCounts : ∀ code : Fin 4,
    c'.groupCounts.get code = c.groupCounts.get code + (es.map (Event.groupedAt code)).sum
  sharedBits : ∀ bit : Fin 8,
    c'.sharedBits.get bit = c.sharedBits.get bit + (es.map (Event.sharing bit)).sum

theorem Adds.refl (c : ChannelAccount) : c.Adds c [] where
  size := rfl
  header := rfl
  groupBytes _ := rfl
  groupCounts _ := rfl
  sharedBits _ := rfl

theorem Adds.trans (h : c.Adds c₁ es) (h' : c₁.Adds c₂ es') : c.Adds c₂ (es ++ es') := by
  have hsum (w : Event → Nat) : ((es ++ es').map w).sum = (es.map w).sum + (es'.map w).sum := by
    rw [List.map_append, List.sum_append]
  constructor
  · rw [h'.size, h.size, hsum, Nat.add_assoc]
  · rw [h'.header, h.header, hsum, Nat.add_assoc]
  · intro code
    rw [h'.groupBytes, h.groupBytes, hsum, Nat.add_assoc]
  · intro code
    rw [h'.groupCounts, h.groupCounts, hsum, Nat.add_assoc]
  · intro bit
    rw [h'.sharedBits, h.sharedBits, hsum, Nat.add_assoc]

theorem shiftRight_and_one_iff (shared : UInt8) (bit : Fin 8) :
    (shared >>> bit.val.toUInt8) &&& 1 = 1 ↔ shared.toBitVec.getLsbD bit = true := by
  have hbit : ∀ (i : Fin 256) (b : Fin 8), (UInt8.ofNat i >>> b.val.toUInt8) &&& 1 = 1 ↔
      (UInt8.ofNat i).toBitVec.getLsbD b = true := by decide +kernel
  have hshared := hbit ⟨shared.toNat, shared.toNat_lt⟩ bit
  rwa [UInt8.ofNat_toNat] at hshared

theorem adds_change (c : ChannelAccount) (e : Event) : c.Adds (e.change c) [e] := by
  cases e with
  | group k width bytes =>
    exact ⟨rfl, rfl, fun code => get_ofFn _ code, fun code => get_ofFn _ code, fun _ => rfl⟩
  | consistency k shared values =>
    refine ⟨rfl, rfl, fun _ => rfl, fun _ => rfl, fun bit => (get_ofFn _ bit).trans ?_⟩
    simp only [shiftRight_and_one_iff]
    rfl
  | header _ _ | channel _ _ | stream _ _ =>
    exact ⟨rfl, rfl, fun _ => rfl, fun _ => rfl, fun _ => rfl⟩

def after (c : ChannelAccount) (es : List Event) : ChannelAccount :=
  es.foldl (fun c e => e.change c) c

theorem adds_after (c : ChannelAccount) (es : List Event) : c.Adds (c.after es) es := by
  induction es generalizing c with
  | nil => exact .refl c
  | cons e es ih => exact (adds_change c e).trans (ih (e.change c))

theorem total_four (v : Vector Nat 4) :
    total v.toList = v.get 0 + v.get 1 + v.get 2 + v.get 3 := by
  obtain ⟨⟨l⟩, hl⟩ := v
  match l, hl with
  | [a, b, c, d], _ =>
    change a + (b + (c + (d + 0))) = a + b + c + d
    omega

theorem Adds.countedBytes (h : c.Adds c' es) :
    c'.countedBytes = c.countedBytes + (es.map Event.counted).sum := by
  have hcounted : (es.map Event.counted).sum = (es.map Event.headed).sum +
      ((es.map (Event.storedAt 0)).sum + (es.map (Event.storedAt 1)).sum +
        (es.map (Event.storedAt 2)).sum + (es.map (Event.storedAt 3)).sum) := by
    simp only [← List.sum_map_add, ← Event.counted_eq]
  rw [ChannelAccount.countedBytes, ChannelAccount.countedBytes, total_four, total_four, hcounted,
    h.header, h.groupBytes, h.groupBytes, h.groupBytes, h.groupBytes]
  omega

theorem Adds.groups (h : c.Adds c' es) :
    total c'.groupCounts.toList = total c.groupCounts.toList + (es.map Event.grouped).sum := by
  have hgrouped : (es.map Event.grouped).sum =
      (es.map (Event.groupedAt 0)).sum + (es.map (Event.groupedAt 1)).sum +
        (es.map (Event.groupedAt 2)).sum + (es.map (Event.groupedAt 3)).sum := by
    simp only [← List.sum_map_add, ← Event.grouped_eq]
  rw [total_four, total_four, hgrouped, h.groupCounts, h.groupCounts, h.groupCounts, h.groupCounts]
  omega

def bytesOf (c : ChannelAccount) (w : Width) : Nat := c.groupBytes.toList.getD w.code 0

def countOf (c : ChannelAccount) (w : Width) : Nat := c.groupCounts.toList.getD w.code 0

theorem getD_code (v : Vector Nat 4) (w : Width) : v.toList.getD w.code 0 = v.get w.place := by
  rw [List.getD_eq_getElem _ _ (by simpa using w.code_lt)]
  rfl

def Holds (c : ChannelAccount) : Prop :=
  ∀ w : Width, w.least * c.countOf w ≤ c.bytesOf w ∧ c.bytesOf w ≤ w.most * c.countOf w

theorem Holds.after (h : c.Holds) (hes : ∀ e ∈ es, e.Holds) : (c.after es).Holds := by
  intro w
  obtain ⟨hleast, hmost⟩ := h w
  have hadds := adds_after c es
  rw [countOf, bytesOf, getD_code, getD_code] at hleast hmost ⊢
  rw [hadds.groupCounts, hadds.groupBytes, Nat.mul_add, Nat.mul_add, ← List.sum_map_mul_left,
    ← List.sum_map_mul_left]
  constructor
  · exact Nat.add_le_add hleast (List.sum_le_sum fun e he => ((hes e he).storedAt w).1)
  · exact Nat.add_le_add hmost (List.sum_le_sum fun e he => ((hes e he).storedAt w).2)

def SharedLe (c : ChannelAccount) (n : Nat) : Prop := ∀ i : Fin 8, c.sharedBits.get i ≤ n

theorem SharedLe.after {n : Nat} (h : c.SharedLe n) (es : List Event) :
    (c.after es).SharedLe (n + (es.map Event.valued).sum) := by
  intro i
  rw [(adds_after c es).sharedBits]
  exact Nat.add_le_add (h i) (List.sum_le_sum fun e _ => e.sharing_le_valued i)

end ChannelAccount

namespace Account
variable {a : Account} {k n : Nat} {e : Event} {es : List Event}

def channel (a : Account) (k : Nat) : ChannelAccount := a.channels.getD k .empty

def upTo (a : Account) (k : Nat) : List ChannelAccount :=
  a.channels ++ List.replicate (k + 1 - a.channels.length) .empty

theorem upTo_length (a : Account) (k : Nat) :
    (a.upTo k).length = max a.channels.length (k + 1) := by
  rw [upTo, List.length_append, List.length_replicate]
  omega

theorem getD_replicate_empty (n j : Nat) :
    (List.replicate n ChannelAccount.empty).getD j .empty = .empty := by
  by_cases hj : j < n
  · exact List.getD_replicate _ hj
  · exact List.getD_eq_default _ _ (by simpa using hj)

theorem getD_upTo (a : Account) (k j : Nat) : (a.upTo k).getD j .empty = a.channel j := by
  rw [upTo, channel]
  by_cases hj : j < a.channels.length
  · rw [List.getD_append _ _ _ _ hj]
  · rw [List.getD_append_right _ _ _ _ (Nat.le_of_not_lt hj), getD_replicate_empty,
      List.getD_eq_default _ _ (Nat.le_of_not_lt hj)]

theorem channel_update (a : Account) (k j : Nat) (change : ChannelAccount → ChannelAccount) :
    (a.update k change).channel j = if j = k then change (a.channel j) else a.channel j := by
  change ((a.upTo k).modify k change).getD j .empty = _
  rw [← getD_upTo a k j, List.getD_eq_getElem?_getD, List.getD_eq_getElem?_getD]
  by_cases hj : j = k
  · subst hj
    have hlen : j < (a.upTo j).length := by
      rw [upTo_length]
      omega
    rw [List.getElem?_modify_eq, List.getElem?_eq_getElem hlen, if_pos rfl]
    rfl
  · rw [List.getElem?_modify_ne _ _ (Ne.symm hj), if_neg hj]

theorem update_channels_length (a : Account) (k : Nat)
    (change : ChannelAccount → ChannelAccount) :
    (a.update k change).channels.length = max a.channels.length (k + 1) := by
  change ((a.upTo k).modify k change).length = _
  rw [List.length_modify, upTo_length]

theorem record_of_some (h : e.channel? = some k) : a.record e = a.update k e.change := by
  cases e with
  | stream _ _ => cases h
  | header _ _ | group _ _ _ | consistency _ _ _ | channel _ _ =>
    cases h
    rfl

theorem channel_record (a : Account) (e : Event) (k : Nat) :
    (a.record e).channel k =
      if e.channel? = some k then e.change (a.channel k) else a.channel k := by
  cases h : e.channel? with
  | none =>
    obtain ⟨_, _, rfl⟩ := Event.exists_stream_of_channel h
    rfl
  | some j =>
    rw [record_of_some h, channel_update]
    by_cases hj : k = j
    · rw [if_pos hj, if_pos (hj ▸ rfl)]
    · rw [if_neg hj, if_neg fun heq => hj (Option.some.inj heq).symm]

def about (k : Nat) (es : List Event) : List Event := es.filter (·.channel? = some k)

theorem about_of_channel {j : Nat} (h : ∀ e ∈ es, e.channel? = some j) :
    about k es = if j = k then es else [] := by
  rw [about]
  by_cases hj : j = k
  · subst hj
    rw [if_pos rfl, List.filter_eq_self]
    intro e he
    simpa using h e he
  · rw [if_neg hj, List.filter_eq_nil_iff]
    intro e he
    simpa [h e he] using hj

/-- The totals of a channel change with the events about that channel, and with no others. -/
theorem channel_foldl (a : Account) (es : List Event) (k : Nat) :
    (es.foldl record a).channel k = (a.channel k).after (about k es) := by
  induction es generalizing a with
  | nil => rfl
  | cons e es ih =>
    rw [List.foldl_cons, ih, channel_record, about, about]
    by_cases he : e.channel? = some k
    · rw [if_pos he, List.filter_cons_of_pos (by simpa using he)]
      rfl
    · rw [if_neg he, List.filter_cons_of_neg (by simpa using he)]

theorem record_channels_length (a : Account) (e : Event) :
    (a.record e).channels.length = max a.channels.length e.reach := by
  cases e with
  | stream _ _ => exact (Nat.max_eq_left (Nat.zero_le _)).symm
  | header _ _ | group _ _ _ | consistency _ _ _ | channel _ _ =>
    exact update_channels_length _ _ _

/-- One more than the largest channel that the events mention, if they mention any. -/
def reached (es : List Event) : Nat := (es.filterMap Event.channel?).max?.elim 0 (· + 1)

theorem reached_le_iff : reached es ≤ n ↔ ∀ e ∈ es, e.reach ≤ n := by
  rw [reached]
  cases hmax : (es.filterMap Event.channel?).max? with
  | none =>
    have hnone := List.filterMap_eq_nil_iff.1 (List.max?_eq_none_iff.1 hmax)
    refine ⟨fun _ e he => ?_, fun _ => Nat.zero_le n⟩
    rw [Event.reach, hnone e he]
    exact Nat.zero_le n
  | some m =>
    obtain ⟨hmem, hle⟩ := List.max?_eq_some_iff.1 hmax
    constructor
    · intro hn e he
      cases hk : e.channel? with
      | none =>
        rw [Event.reach, hk]
        exact Nat.zero_le n
      | some k =>
        have hkm := hle k (List.mem_filterMap.2 ⟨e, he, hk⟩)
        rw [Event.reach, hk]
        exact Nat.le_trans (Nat.succ_le_succ hkm) hn
    · intro hall
      obtain ⟨e, he, hm⟩ := List.mem_filterMap.1 hmem
      have hreach := hall e he
      rwa [Event.reach, hm] at hreach

theorem reached_cons (e : Event) (es : List Event) :
    reached (e :: es) = max e.reach (reached es) := by
  refine eq_of_forall_ge_iff fun n => ?_
  rw [Nat.max_le, reached_le_iff, reached_le_iff, List.forall_mem_cons]

theorem channels_length_foldl (a : Account) (es : List Event) :
    (es.foldl record a).channels.length = max a.channels.length (reached es) := by
  induction es generalizing a with
  | nil => exact (Nat.max_eq_left (Nat.zero_le _)).symm
  | cons e es ih =>
    rw [List.foldl_cons, ih, record_channels_length, reached_cons, Nat.max_assoc]

theorem total_append (xs ys : List Nat) : total (xs ++ ys) = total xs + total ys := by
  induction xs with
  | nil => exact (Nat.zero_add _).symm
  | cons x xs ih =>
    change x + total (xs ++ ys) = x + total xs + total ys
    rw [ih, Nat.add_assoc]

theorem total_replicate_empty (n : Nat) :
    total ((List.replicate n ChannelAccount.empty).map (·.size)) = 0 := by
  induction n with
  | zero => rfl
  | succ n ih =>
    change 0 + total _ = 0
    rw [Nat.zero_add]
    exact ih

theorem total_modify {change : ChannelAccount → ChannelAccount} {bytes : Nat}
    (h : ∀ c, (change c).size = c.size + bytes) {l : List ChannelAccount} (hk : k < l.length) :
    total ((l.modify k change).map (·.size)) = total (l.map (·.size)) + bytes := by
  induction l generalizing k with
  | nil => exact absurd hk (Nat.not_lt_zero _)
  | cons c l ih =>
    cases k with
    | zero =>
      change (change c).size + total _ = c.size + total _ + bytes
      rw [h]
      omega
    | succ k =>
      have hrest := ih (Nat.lt_of_succ_lt_succ hk)
      change c.size + total ((l.modify k change).map (·.size)) = c.size + total _ + bytes
      omega

theorem blockBytes_record (a : Account) (e : Event) :
    (a.record e).blockBytes = a.blockBytes + e.sized := by
  cases h : e.channel? with
  | none =>
    obtain ⟨_, _, rfl⟩ := Event.exists_stream_of_channel h
    rfl
  | some k =>
    have hlen : k < (a.upTo k).length := by
      rw [upTo_length]
      omega
    rw [record_of_some h]
    change total (((a.upTo k).modify k e.change).map (·.size)) = _
    rw [total_modify (fun c => (ChannelAccount.adds_change c e).size) hlen, upTo, List.map_append,
      total_append, total_replicate_empty]
    rfl

theorem blockBytes_foldl (a : Account) (es : List Event) :
    (es.foldl record a).blockBytes = a.blockBytes + (es.map Event.sized).sum := by
  induction es generalizing a with
  | nil => rfl
  | cons e es ih =>
    rw [List.foldl_cons, ih, blockBytes_record, List.map_cons, List.sum_cons, Nat.add_assoc]

theorem blockBytes_empty (m : Nat) : (empty m).blockBytes = 0 := total_replicate_empty m

theorem channel_empty (m k : Nat) : (empty m).channel k = .empty := getD_replicate_empty m k

theorem foldl_of_channels (h : ∀ e ∈ es, e.channel? ≠ none) :
    (es.foldl record a).vertexCount = a.vertexCount ∧
      (es.foldl record a).totalSize = a.totalSize := by
  induction es generalizing a with
  | nil => exact ⟨rfl, rfl⟩
  | cons e es ih =>
    obtain ⟨hcount, htotal⟩ := ih (a := a.record e) fun e he => h e (List.mem_cons_of_mem _ he)
    cases e with
    | stream _ _ => exact absurd rfl (h _ List.mem_cons_self)
    | header _ _ | group _ _ _ | consistency _ _ _ | channel _ _ => exact ⟨hcount, htotal⟩

end Account
end VertexPack
