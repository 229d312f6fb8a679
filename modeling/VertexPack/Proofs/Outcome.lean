import VertexPack.Proofs.StreamLength

/-! How encoding into a fresh destination ends, and what is then in the destination. -/
namespace VertexPack.DeltaStream
variable {σ : Type} {version : UInt8} {count size : Nat} {source destination : List UInt8}

structure Admissible (version : UInt8) (count size : Nat) (source : List UInt8) : Prop where
  validSize : ValidSize size
  version_le : version ≤ FormatByte.maxVersion
  lt_limit : count * size < Capacity.limit
  le_length : count * size ≤ source.length

def streamBytes (version : UInt8) (count size : Nat) (source : List UInt8) : List UInt8 :=
  (FormatByte.tag ||| version) :: bodyBytes (Record.split size count source)

theorem streamBytes_length (h : Admissible version count size source) :
    (streamBytes version count size source).length = streamLength count size source := by
  obtain ⟨size, rfl⟩ := h.validSize.exists_size
  exact bytes_ofSource_length ⟨version, h.version_le⟩

theorem streamBytes_congr {source' : List UInt8}
    (h : source'.take (count * size) = source.take (count * size)) :
    streamBytes version count size source' = streamBytes version count size source := by
  rw [streamBytes, ← Record.split_take, h, Record.split_take, streamBytes]

theorem prepare_of_admissible (h : Admissible version count size source) :
    ∃ job, Job.prepare version count size source = .ok job ∧
      job.bytes = streamBytes version count size source := by
  obtain ⟨size, rfl⟩ := h.validSize.exists_size
  exact ⟨_, prepare_of_le h.version_le h.lt_limit h.le_length, rfl⟩

variable (obs : Observer σ) (observed : σ)

theorem encode_of_not_valid (h : ¬ ValidSize size) (s : Session σ) :
    encode obs version count size source s = .error (.invalidVertexSize size) s :=
  encode_of_prepare_error (prepare_of_not_valid h)

theorem encode_of_version_lt (hsize : ValidSize size) (h : FormatByte.maxVersion < version)
    (s : Session σ) :
    encode obs version count size source s = .error (.frame (.invalidVersion version)) s := by
  obtain ⟨size, rfl⟩ := hsize.exists_size
  exact encode_of_prepare_error (prepare_of_lt h)

theorem encode_of_short (hsize : ValidSize size) (hversion : version ≤ FormatByte.maxVersion)
    (h : source.length < count * size ∨ Capacity.limit ≤ count * size) (s : Session σ) :
    ∃ needed available, encode obs version count size source s =
      .error (.sourceTooSmall needed available) s := by
  obtain ⟨size, rfl⟩ := hsize.exists_size
  obtain ⟨needed, available, herror⟩ := prepare_of_short hversion h
  exact ⟨needed, available, encode_of_prepare_error herror⟩

theorem encode_emits (h : Admissible version count size source) :
    Emits (streamBytes version count size source) (encode obs version count size source) := by
  obtain ⟨job, hjob, hbytes⟩ := prepare_of_admissible h
  rw [← hbytes, encode_of_prepare_ok hjob]
  exact job.encode_emits obs

theorem encode_of_lt (h : Admissible version count size source)
    (hlt : destination.length < streamLength count size source) :
    ∃ needed available s, encode obs version count size source (.start destination observed) =
        .error (.outputTooSmall needed available) s ∧ available < needed := by
  rw [← streamBytes_length h] at hlt
  exact (encode_emits obs h).start_of_lt observed hlt

theorem encode_of_le (h : Admissible version count size source)
    (hle : streamLength count size source ≤ destination.length) :
    ∃ s, encode obs version count size source (.start destination observed) =
        .ok (streamLength count size source) s ∧
      s.writer.destination = streamBytes version count size source ++
        destination.drop (streamLength count size source) := by
  rw [← streamBytes_length h] at hle ⊢
  exact (encode_emits obs h).start_of_le observed hle

/-- The five ways in which encoding ends, each with its own condition. -/
inductive Ending (version : UInt8) (count size : Nat) (source destination : List UInt8) :
    EStateM.Result StreamError (Session σ) Nat → Prop
  | invalidSize (s : Session σ) (h : ¬ ValidSize size) :
    Ending version count size source destination (.error (.invalidVertexSize size) s)
  | invalidVersion (s : Session σ) (hsize : ValidSize size)
    (h : FormatByte.maxVersion < version) :
    Ending version count size source destination (.error (.frame (.invalidVersion version)) s)
  | sourceTooSmall (needed available : Nat) (s : Session σ) (hsize : ValidSize size)
    (hversion : version ≤ FormatByte.maxVersion)
    (h : source.length < count * size ∨ Capacity.limit ≤ count * size) :
    Ending version count size source destination (.error (.sourceTooSmall needed available) s)
  | outputTooSmall (needed available : Nat) (s : Session σ)
    (hadmissible : Admissible version count size source)
    (h : destination.length < streamLength count size source) (hlt : available < needed) :
    Ending version count size source destination (.error (.outputTooSmall needed available) s)
  | done (s : Session σ) (hadmissible : Admissible version count size source)
    (h : streamLength count size source ≤ destination.length)
    (hbytes : s.writer.destination = streamBytes version count size source ++
      destination.drop (streamLength count size source)) :
    Ending version count size source destination (.ok (streamLength count size source) s)

theorem encode_ending (version : UInt8) (count size : Nat) (source destination : List UInt8) :
    Ending version count size source destination
      (encode obs version count size source (.start destination observed)) := by
  by_cases hsize : ValidSize size
  · by_cases hversion : version ≤ FormatByte.maxVersion
    · by_cases hshort : source.length < count * size ∨ Capacity.limit ≤ count * size
      · obtain ⟨needed, available, hs⟩ := encode_of_short obs hsize hversion hshort
          (.start destination observed)
        rw [hs]
        exact .sourceTooSmall _ _ _ hsize hversion hshort
      · have hadmissible : Admissible version count size source :=
          ⟨hsize, hversion, by omega, by omega⟩
        by_cases hle : streamLength count size source ≤ destination.length
        · obtain ⟨s, hs, hbytes⟩ := encode_of_le obs observed hadmissible hle
          rw [hs]
          exact .done s hadmissible hle hbytes
        · obtain ⟨needed, available, s, hs, hlt⟩ :=
            encode_of_lt obs observed hadmissible (Nat.lt_of_not_le hle)
          rw [hs]
          exact .outputTooSmall _ _ s hadmissible (Nat.lt_of_not_le hle) hlt
    · rw [encode_of_version_lt obs hsize (UInt8.not_le.1 hversion)]
      exact .invalidVersion _ hsize (UInt8.not_le.1 hversion)
  · rw [encode_of_not_valid obs hsize]
    exact .invalidSize _ hsize

theorem of_encode_eq_ok {len : Nat} {s : Session σ}
    (h : encode obs version count size source (.start destination observed) = .ok len s) :
    Admissible version count size source ∧ len = streamLength count size source ∧
      len ≤ destination.length ∧ s.writer.destination =
        streamBytes version count size source ++ destination.drop len := by
  have hend := encode_ending obs observed version count size source destination
  rw [h] at hend
  cases hend with
  | done s hadmissible hle hbytes => exact ⟨hadmissible, rfl, hle, hbytes⟩

theorem take_of_encode_eq_ok {len : Nat} {s : Session σ}
    (h : encode obs version count size source (.start destination observed) = .ok len s) :
    s.writer.destination.take len = streamBytes version count size source := by
  obtain ⟨hadmissible, _⟩ := of_encode_eq_ok obs observed h
  exact (encode_emits obs hadmissible).take_of_start_eq_ok observed h

theorem encode_invalidSize_iff :
    (∃ s, encode obs version count size source (.start destination observed) =
      .error (.invalidVertexSize size) s) ↔ ¬ ValidSize size := by
  constructor
  · intro ⟨s, hs⟩
    have hend := encode_ending obs observed version count size source destination
    rw [hs] at hend
    cases hend with
    | invalidSize _ h => exact h
  · intro h
    exact ⟨_, encode_of_not_valid obs h _⟩

theorem encode_invalidVersion_iff :
    (∃ s, encode obs version count size source (.start destination observed) =
      .error (.frame (.invalidVersion version)) s) ↔
      ValidSize size ∧ FormatByte.maxVersion < version := by
  constructor
  · intro ⟨s, hs⟩
    have hend := encode_ending obs observed version count size source destination
    rw [hs] at hend
    cases hend with
    | invalidVersion _ hsize h => exact ⟨hsize, h⟩
  · intro ⟨hsize, h⟩
    exact ⟨_, encode_of_version_lt obs hsize h _⟩

theorem encode_sourceTooSmall_iff :
    (∃ needed available s, encode obs version count size source (.start destination observed) =
      .error (.sourceTooSmall needed available) s) ↔
      ValidSize size ∧ version ≤ FormatByte.maxVersion ∧
        (source.length < count * size ∨ Capacity.limit ≤ count * size) := by
  constructor
  · intro ⟨needed, available, s, hs⟩
    have hend := encode_ending obs observed version count size source destination
    rw [hs] at hend
    cases hend with
    | sourceTooSmall _ _ _ hsize hversion h => exact ⟨hsize, hversion, h⟩
  · intro ⟨hsize, hversion, h⟩
    obtain ⟨needed, available, hs⟩ := encode_of_short obs hsize hversion h _
    exact ⟨needed, available, _, hs⟩

theorem encode_outputTooSmall_iff :
    (∃ needed available s, encode obs version count size source (.start destination observed) =
      .error (.outputTooSmall needed available) s ∧ available < needed) ↔
      Admissible version count size source ∧
        destination.length < streamLength count size source := by
  constructor
  · intro ⟨needed, available, s, hs, _⟩
    have hend := encode_ending obs observed version count size source destination
    rw [hs] at hend
    cases hend with
    | outputTooSmall _ _ _ hadmissible h => exact ⟨hadmissible, h⟩
  · intro ⟨hadmissible, h⟩
    exact encode_of_lt obs observed hadmissible h

theorem encode_ok_iff (len : Nat) :
    (∃ s, encode obs version count size source (.start destination observed) = .ok len s) ↔
      Admissible version count size source ∧
        streamLength count size source ≤ destination.length ∧
        len = streamLength count size source := by
  constructor
  · intro ⟨s, hs⟩
    obtain ⟨hadmissible, rfl, hle, _⟩ := of_encode_eq_ok obs observed hs
    exact ⟨hadmissible, hle, rfl⟩
  · intro ⟨hadmissible, hle, hlen⟩
    obtain ⟨s, hs, _⟩ := encode_of_le obs observed hadmissible hle
    rw [hlen]
    exact ⟨s, hs⟩

/-- Two runs on the same records write the same bytes, whatever else they differ in. -/
theorem encode_congr {τ : Type} {obs' : Observer τ} {observed' : τ}
    {source' destination' : List UInt8} {len len' : Nat} {s : Session σ} {s' : Session τ}
    (htake : source'.take (count * size) = source.take (count * size))
    (hs : encode obs version count size source (.start destination observed) = .ok len s)
    (hs' : encode obs' version count size source' (.start destination' observed') = .ok len' s') :
    len' = len ∧ s'.writer.destination.take len' = s.writer.destination.take len := by
  obtain ⟨hadmissible, hlen, _⟩ := of_encode_eq_ok obs observed hs
  obtain ⟨hadmissible', hlen', _⟩ := of_encode_eq_ok obs' observed' hs'
  rw [← streamBytes_length hadmissible] at hlen
  rw [← streamBytes_length hadmissible', streamBytes_congr htake] at hlen'
  rw [take_of_encode_eq_ok obs observed hs, take_of_encode_eq_ok obs' observed' hs',
    streamBytes_congr htake]
  exact ⟨hlen'.trans hlen.symm, rfl⟩

/-- How encoding ends, for every input: the conditions exclude each other and leave no
input out. The bytes of a stream depend on the version and on the records only. -/
theorem encode_outcome (version : UInt8) (count size : Nat) (source destination : List UInt8) :
    let result := encode obs version count size source (.start destination observed)
    let length := streamLength count size source
    ((∃ s, result = .error (.invalidVertexSize size) s) ↔ ¬ ValidSize size) ∧
    ((∃ s, result = .error (.frame (.invalidVersion version)) s) ↔ ValidSize size ∧ 15 < version) ∧
    ((∃ needed available s, result = .error (.sourceTooSmall needed available) s) ↔
      ValidSize size ∧ version ≤ 15 ∧
        (source.length < count * size ∨ Capacity.limit ≤ count * size)) ∧
    (∀ len, (∃ s, result = .ok len s) ↔
      Admissible version count size source ∧ length ≤ destination.length ∧ len = length) ∧
    ((∃ needed available s, result = .error (.outputTooSmall needed available) s ∧
        available < needed) ↔
      Admissible version count size source ∧ destination.length < length) ∧
    ∀ (τ : Type) (obs' : Observer τ) (observed' : τ) (source' destination' : List UInt8)
      (len len' : Nat) (s : Session σ) (s' : Session τ),
      source'.take (count * size) = source.take (count * size) →
      result = .ok len s →
      encode obs' version count size source' (.start destination' observed') = .ok len' s' →
      len' = len ∧ s'.writer.destination.take len' = s.writer.destination.take len := by
  intro result length
  refine ⟨encode_invalidSize_iff obs observed, encode_invalidVersion_iff obs observed,
    encode_sourceTooSmall_iff obs observed, encode_ok_iff obs observed,
    encode_outputTooSmall_iff obs observed, ?_⟩
  intro τ obs' observed' source' destination' len len' s s' htake hs hs'
  exact encode_congr obs observed htake hs hs'

theorem encode_outcome_one_record :
    ∃ s s', encode Observer.silent 1 1 4 [1, 2, 3, 4] (.start (List.replicate 40 0) ()) = .ok 37 s ∧
      encode Observer.log 1 1 4 [1, 2, 3, 4, 5] (.start (List.replicate 37 9) #[]) = .ok 37 s' ∧
      s'.writer.destination.take 37 = s.writer.destination.take 37 := by
  obtain ⟨_, _, _, hok, _, hsame⟩ :=
    encode_outcome Observer.silent () 1 1 4 [1, 2, 3, 4] (List.replicate 40 0)
  obtain ⟨_, _, _, hok', _, _⟩ :=
    encode_outcome Observer.log #[] 1 1 4 [1, 2, 3, 4, 5] (List.replicate 37 9)
  have hvalid : ValidSize 4 := by decide
  obtain ⟨s, hs⟩ := (hok 37).2 ⟨⟨hvalid, by decide, by decide, by decide⟩, by decide, by decide⟩
  obtain ⟨s', hs'⟩ := (hok' 37).2 ⟨⟨hvalid, by decide, by decide, by decide⟩, by decide, by decide⟩
  exact ⟨s, s', hs, hs', (hsame _ _ _ _ _ _ _ _ _ rfl hs hs').2⟩

end VertexPack.DeltaStream
