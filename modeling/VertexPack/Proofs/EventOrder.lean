import VertexPack.Proofs.Accounts

/-! Accounts of the same events in another order. Every total of a channel is what it was and the
sum of what the events of that channel add to it, and there are as many channels as the events need;
so the order of the events does not show. A stream that is complete is no such event: the last one
counts. -/
namespace VertexPack

namespace ChannelAccount
variable {c c' c₁ c₂ : ChannelAccount} {es es' : List Event}

theorem eq_of_get (hsize : c.size = c'.size) (hheader : c.header = c'.header)
    (hbytes : ∀ code, c.groupBytes.get code = c'.groupBytes.get code)
    (hcounts : ∀ code, c.groupCounts.get code = c'.groupCounts.get code)
    (hshared : ∀ bit, c.sharedBits.get bit = c'.sharedBits.get bit) : c = c' := by
  have hbytes' : c.groupBytes = c'.groupBytes := Vector.ext fun i hi => hbytes ⟨i, hi⟩
  have hcounts' : c.groupCounts = c'.groupCounts := Vector.ext fun i hi => hcounts ⟨i, hi⟩
  have hshared' : c.sharedBits = c'.sharedBits := Vector.ext fun i hi => hshared ⟨i, hi⟩
  cases c
  cases c'
  simp_all

theorem Adds.unique (h : c.Adds c₁ es) (h' : c.Adds c₂ es') (hperm : es.Perm es') : c₁ = c₂ := by
  have hsum (w : Event → Nat) : (es.map w).sum = (es'.map w).sum := (hperm.map w).sum_eq
  apply eq_of_get
  · rw [h.size, h'.size, hsum]
  · rw [h.header, h'.header, hsum]
  · intro code
    rw [h.groupBytes, h'.groupBytes, hsum]
  · intro code
    rw [h.groupCounts, h'.groupCounts, hsum]
  · intro bit
    rw [h.sharedBits, h'.sharedBits, hsum]

structure Fits (c : ChannelAccount) : Prop where
  size : c.size < Capacity.limit
  header : c.header < Capacity.limit
  groupBytes : ∀ code : Fin 4, c.groupBytes.get code < Capacity.limit
  groupCounts : ∀ code : Fin 4, c.groupCounts.get code < Capacity.limit
  sharedBits : ∀ bit : Fin 8, c.sharedBits.get bit < Capacity.limit

instance (c : ChannelAccount) : Decidable c.Fits :=
  decidable_of_iff (c.size < Capacity.limit ∧ c.header < Capacity.limit ∧
      (∀ code : Fin 4, c.groupBytes.get code < Capacity.limit) ∧
      (∀ code : Fin 4, c.groupCounts.get code < Capacity.limit) ∧
      ∀ bit : Fin 8, c.sharedBits.get bit < Capacity.limit)
    ⟨fun ⟨hsize, hheader, hbytes, hcounts, hshared⟩ => ⟨hsize, hheader, hbytes, hcounts, hshared⟩,
      fun h => ⟨h.size, h.header, h.groupBytes, h.groupCounts, h.sharedBits⟩⟩

theorem Adds.fits (h : c.Adds c' es) (hfits : c'.Fits) : c.Fits where
  size := Nat.lt_of_le_of_lt (h.size ▸ Nat.le_add_right _ _) hfits.size
  header := Nat.lt_of_le_of_lt (h.header ▸ Nat.le_add_right _ _) hfits.header
  groupBytes code :=
    Nat.lt_of_le_of_lt (h.groupBytes code ▸ Nat.le_add_right _ _) (hfits.groupBytes code)
  groupCounts code :=
    Nat.lt_of_le_of_lt (h.groupCounts code ▸ Nat.le_add_right _ _) (hfits.groupCounts code)
  sharedBits bit :=
    Nat.lt_of_le_of_lt (h.sharedBits bit ▸ Nat.le_add_right _ _) (hfits.sharedBits bit)

end ChannelAccount

namespace Account
variable {a b b' : Account} {es es' : List Event}

theorem reached_perm (hperm : es.Perm es') : reached es = reached es' := by
  refine eq_of_forall_ge_iff fun n => ?_
  rw [reached_le_iff, reached_le_iff]
  simp only [hperm.mem_iff]

theorem channel_of_getElem? {k : Nat} {c : ChannelAccount} (h : a.channels[k]? = some c) :
    a.channel k = c := by
  rw [channel, List.getD_eq_getElem?_getD, h, Option.getD_some]

/-- The account `b` is `a` with the events added, channel by channel; channels that `a` lacks begin
empty. -/
structure Adds (a b : Account) (es : List Event) : Prop where
  vertexCount : b.vertexCount = a.vertexCount
  totalSize : b.totalSize = a.totalSize
  channels_length : b.channels.length = max a.channels.length (reached es)
  channel : ∀ k c, b.channels[k]? = some c → (a.channel k).Adds c (about k es)

theorem adds_foldl (h : ∀ e ∈ es, e.channel? ≠ none) (a : Account) :
    a.Adds (es.foldl record a) es where
  vertexCount := (foldl_of_channels h).1
  totalSize := (foldl_of_channels h).2
  channels_length := channels_length_foldl a es
  channel k c hc := by
    rw [← channel_of_getElem? hc, channel_foldl]
    exact ChannelAccount.adds_after _ _

theorem Adds.unique (h : a.Adds b es) (h' : a.Adds b' es') (hperm : es.Perm es') : b = b' := by
  have hlength : b.channels.length = b'.channels.length := by
    rw [h.channels_length, h'.channels_length, reached_perm hperm]
  have hchannels : b.channels = b'.channels := by
    apply List.ext_getElem hlength
    intro k hk hk'
    exact (h.channel k _ (List.getElem?_eq_getElem hk)).unique
      (h'.channel k _ (List.getElem?_eq_getElem hk')) (hperm.filter _)
  have hcount := h.vertexCount.trans h'.vertexCount.symm
  have htotal := h.totalSize.trans h'.totalSize.symm
  cases b
  cases b'
  simp_all

structure Fits (a : Account) : Prop where
  vertexCount : a.vertexCount < Capacity.limit
  totalSize : a.totalSize < Capacity.limit
  channels_length : a.channels.length < Capacity.limit
  channels : ∀ c ∈ a.channels, c.Fits

instance (a : Account) : Decidable a.Fits :=
  decidable_of_iff (a.vertexCount < Capacity.limit ∧ a.totalSize < Capacity.limit ∧
      a.channels.length < Capacity.limit ∧ ∀ c ∈ a.channels, c.Fits)
    ⟨fun ⟨hcount, htotal, hlength, hchannels⟩ => ⟨hcount, htotal, hlength, hchannels⟩,
      fun h => ⟨h.vertexCount, h.totalSize, h.channels_length, h.channels⟩⟩

/-- Adding events never brings a number back into the sizes. -/
theorem Adds.fits (h : a.Adds b es) (hfits : b.Fits) : a.Fits where
  vertexCount := h.vertexCount ▸ hfits.vertexCount
  totalSize := h.totalSize ▸ hfits.totalSize
  channels_length :=
    Nat.lt_of_le_of_lt (h.channels_length ▸ Nat.le_max_left _ _) hfits.channels_length
  channels c hc := by
    obtain ⟨k, hk, rfl⟩ := List.mem_iff_getElem.1 hc
    have hle : a.channels.length ≤ b.channels.length := h.channels_length ▸ Nat.le_max_left _ _
    have hlt : k < b.channels.length := Nat.lt_of_lt_of_le hk hle
    have hadds := h.channel k _ (List.getElem?_eq_getElem hlt)
    rw [channel_of_getElem? (List.getElem?_eq_getElem hk)] at hadds
    exact hadds.fits (hfits.channels _ (List.getElem_mem hlt))

theorem fits_of_isPrefix (h : ∀ e ∈ es, e.channel? ≠ none) (hfits : (es.foldl record a).Fits)
    {front : List Event} (hfront : front <+: es) : (front.foldl record a).Fits := by
  obtain ⟨rest, rfl⟩ := hfront
  rw [List.foldl_append] at hfits
  exact (adds_foldl (fun e he => h e (List.mem_append_right _ he)) _).fits hfits

/-- An account of events about channels does not depend on their order: its counts of records and
bytes are left as they were, it has channels up to the largest one that is mentioned, and every
total of a channel has grown by the sum of what the events about it add. None of these numbers
leaves the sizes on the way unless one of them does in the end. -/
theorem record_any_order {es es' : List Event} (hperm : es.Perm es')
    (hchannels : ∀ e ∈ es, e.channel? ≠ none) (a : Account) :
    es.foldl record a = es'.foldl record a ∧ a.Adds (es.foldl record a) es ∧
      ((∀ front, front <+: es → (front.foldl record a).Fits) ↔ (es.foldl record a).Fits) := by
  have hchannels' (e : Event) (he : e ∈ es') : e.channel? ≠ none :=
    hchannels e (hperm.mem_iff.2 he)
  refine ⟨(adds_foldl hchannels a).unique (adds_foldl hchannels' a) hperm, adds_foldl hchannels a,
    fun hall => hall es (List.prefix_refl es), fun hfits front hfront => ?_⟩
  exact fits_of_isPrefix hchannels hfits hfront

theorem record_any_order_three_events :
    ∃ a es, es = [Event.header 5 1, .group 5 .four 9, .consistency 4 0x81 16] ∧
      es.foldl record (empty 4) = a ∧ es.reverse.foldl record (empty 4) = a ∧
      a.channels.length = 6 ∧ (empty 4).Adds a es ∧
      ∀ front, front <+: es → (front.foldl record (empty 4)).Fits := by
  obtain ⟨hsame, hadds, hfits⟩ := record_any_order
    (List.reverse_perm [Event.header 5 1, .group 5 .four 9, .consistency 4 0x81 16]).symm
    (by decide) (empty 4)
  exact ⟨_, _, rfl, rfl, hsame.symm, hadds.channels_length, hadds, hfits.2 (by decide)⟩

end Account
end VertexPack
