import Segmented.Proofs.RoundTrip

/-! A stream of bytes that ends too early, or whose reader gives up, is never restored; which error
it ends in says where it was cut. -/

namespace Segmented

variable {σ ω α : Type}

/-! ### Transfers that fail -/

theorem Transfer.run_bind_of_error {ρ τ : Type} {first : Transfer ω ρ} {next : ρ → Transfer ω τ}
    {place : ω} {error : SnapshotError} (failed : (first.run.run place).1 = .error error) :
    ((first >>= next).run.run place).1 = .error error := by
  rw [ExceptT.run_bind, StateT.run_bind]
  generalize first.run.run place = answer at failed
  obtain ⟨answer, place'⟩ := answer
  obtain rfl : answer = .error error := failed
  rfl

/-- A transfer that succeeds as a whole succeeds in its first part. -/
theorem Transfer.exists_of_run_bind {ρ τ : Type} {first : Transfer ω ρ} {next : ρ → Transfer ω τ}
    {place place'' : ω} {y : τ} (run : (first >>= next).run.run place = (.ok y, place'')) :
    ∃ x place', first.run.run place = (.ok x, place') ∧
      (next x).run.run place' = (.ok y, place'') := by
  cases begun : first.run.run place with
  | mk answer place' =>
    cases answer with
    | error error =>
      have failed : ((first >>= next).run.run place).1 = .error error :=
        Transfer.run_bind_of_error (congrArg Prod.fst begun)
      rw [run] at failed
      cases failed
    | ok x =>
      rw [Transfer.run_bind begun] at run
      exact ⟨x, place', rfl, run⟩

namespace Snapshot

variable [Allocator σ α] [Inhabited α] {error : SnapshotError}

theorem restore_of_metadata_error [reader : Source ω α] {source : ω}
    (failed : (reader.readMetadata.run.run source).1 = .error error) (depot : Depot σ) :
    ((restore (α := α) source).run depot).1.1 = .error error := by
  unfold restore
  generalize reader.readMetadata.run.run source = answer at failed
  obtain ⟨answer, source'⟩ := answer
  obtain rfl : answer = .error error := failed
  rfl

theorem restore_of_arrays_error [LawfulAllocator σ α] [reader : Source ω α] {s : Sequence α}
    (valid : s.Valid) {source source' : ω}
    (metadata : reader.readMetadata.run.run source = (.ok s.metadata, source'))
    (failed : ((readArrays (α := α) 0 ((arrays s).map Array.size) #[]).run.run source').1 =
      .error error)
    (depot : Depot σ) (sound : LawfulAllocator.Sound depot.allocator) :
    ((restore (α := α) source).run depot).1.1 = .error error := by
  obtain ⟨_, -, outcome⟩ := exists_outcome valid metadata depot sound
  generalize (readArrays (ω := ω) (α := α) 0 _ #[]).run.run source' = answer at failed outcome
  obtain ⟨answer, source''⟩ := answer
  obtain rfl : answer = .error error := failed
  exact congrArg Prod.fst outcome

end Snapshot

/-! ### What was written -/

namespace Records

open Snapshot (write writeArrays)

theorem fits_of_putRecord {ρ : Type} [Codec ρ] {value : ρ} {writer writer' : Writer}
    (written : (putRecord value).run.run writer = (.ok (), writer')) : Fits value := by
  unfold putRecord at written
  cases encoded : Codec.encode value with
  | error fault =>
    rw [encoded] at written
    cases written
  | ok bytes =>
    rw [encoded] at written
    by_cases large : largestRecord < bytes.length
    · dsimp only at written
      rw [if_pos large] at written
      cases written
    · exact fits_of_encode encoded (Nat.not_lt.mp large)

variable [Codec Metadata] [Codec (Array α)]

theorem fits_of_writeArrays {arrays : List (Array α)} {index : Nat} {writer writer' : Writer}
    (written : (writeArrays index arrays).run.run writer = (.ok (), writer')) :
    ∀ items ∈ arrays, Fits items := by
  induction arrays generalizing index writer with
  | nil => exact fun _ => nofun
  | cons first rest ih =>
    obtain ⟨_, _, opening, later⟩ := Transfer.exists_of_run_bind written
    intro items member
    rcases List.mem_cons.mp member with rfl | member
    · exact fits_of_putRecord opening
    · exact ih later items member

/-- What could be written had records that fit. -/
theorem fit_of_saved {s : Sequence α} {writer writer' : Writer} {depot : Depot σ}
    (saved : ((Snapshot.save s writer).run depot).1 = (.ok (), writer')) : Fit s := by
  cases written : (write (ω := Writer) s).run.run writer with
  | mk answer after =>
    cases answer with
    | error error =>
      unfold Snapshot.save at saved
      rw [written] at saved
      cases saved
    | ok _ =>
      obtain ⟨_, _, header, arrays⟩ := Transfer.exists_of_run_bind written
      obtain ⟨_, _, _, header⟩ := Transfer.exists_of_run_bind header
      obtain ⟨_, _, _, metadata⟩ := Transfer.exists_of_run_bind header
      exact ⟨fits_of_putRecord metadata, fits_of_writeArrays arrays⟩

end Records

/-! ### Readers that are cut off -/

namespace IoFault

/-- What reading the length of a record meets: a stream may end there, but its reader may not give
up. -/
def absent {ρ : Type} : IoFault → Except SnapshotError (Option ρ)
  | ended => .ok none
  | fault => .error (.io fault)

/-- What a reading ends in that is cut off where the absence of a record is the given error, or
where no record is to begin. A reader that gives up is never taken for an end. -/
def lapse : IoFault → Option SnapshotError → SnapshotError
  | ended, some error => error
  | fault, _ => .io fault

theorem lapse_none (fault : IoFault) : fault.lapse none = .io fault := by
  cases fault <;> rfl

end IoFault

theorem Reader.read_of_short {count : Nat} {reader : Reader}
    (short : (reader.rest.take (reader.allowed count)).length ≠ count) :
    (reader.read count).1 = .error (reader.read count).2.fault := by
  unfold read
  dsimp only
  rw [if_neg short]

/-- A read takes what it is allowed to, whether that is all it asked for or not. -/
theorem Reader.read_snd (count : Nat) (reader : Reader) :
    (reader.read count).2 =
      let taken := (reader.rest.take (reader.allowed count)).length
      { reader with rest := reader.rest.drop taken, consumed := reader.consumed + taken } := by
  unfold read
  dsimp only
  split <;> rfl

/-- The reader serves the first `left` of the bytes, and then meets the end or gives up. -/
def Reader.Cut (bytes : List UInt8) (left : Nat) (fault : IoFault) (reader : Reader) : Prop :=
  left ≤ bytes.length ∧
    match fault with
    | .ended => reader.rest = bytes.take left ∧ reader.failsAt = none
    | .reader => reader.rest = bytes ∧ reader.failsAt = some (reader.consumed + left)
    | .full => False

namespace Reader.Cut

variable {bytes front more : List UInt8} {left count : Nat} {fault : IoFault} {reader : Reader}

theorem truncated (inside : left ≤ bytes.length) (consumed : Nat) :
    Cut bytes left .ended { rest := bytes.take left, consumed } :=
  ⟨inside, rfl, rfl⟩

theorem failing (inside : left ≤ bytes.length) :
    Cut bytes left .reader { rest := bytes, failsAt := some left } :=
  ⟨inside, rfl, congrArg some (Nat.zero_add left).symm⟩

/-- What lies before the cut is read as if there were none. -/
theorem exists_read (cut : Cut (front ++ more) left fault reader) (whole : front.length ≤ left) :
    ∃ reader', reader.read front.length = (.ok front, reader') ∧
      Cut more (left - front.length) fault reader' := by
  obtain ⟨rest, consumed, failsAt⟩ := reader
  obtain ⟨inside, state⟩ := cut
  dsimp only at state
  rw [List.length_append] at inside
  have left' : left - front.length ≤ more.length := by omega
  cases fault with
  | full => exact state.elim
  | ended =>
    obtain ⟨rfl, rfl⟩ := state
    refine ⟨{ rest := more.take (left - front.length), consumed := consumed + front.length }, ?_,
      left', rfl, rfl⟩
    simp [Reader.read, Reader.allowed, List.take_append, List.take_of_length_le whole]
  | reader =>
    obtain ⟨rfl, rfl⟩ := state
    refine ⟨{ rest := more, consumed := consumed + front.length,
              failsAt := some (consumed + left) }, ?_, left', rfl, ?_⟩
    · simp [Reader.read, Reader.allowed, whole]
    · simp
      omega

/-- What goes beyond the cut is not read. -/
theorem read_fst (cut : Cut bytes left fault reader) (short : left < count) :
    (reader.read count).1 = .error fault := by
  obtain ⟨inside, state⟩ := cut
  cases fault with
  | full => exact state.elim
  | ended =>
    obtain ⟨rest, never⟩ := state
    have allowed : reader.allowed count = count := by simp [Reader.allowed, never]
    have size : (reader.rest.take (reader.allowed count)).length ≠ count := by
      rw [allowed, rest, List.length_take, List.length_take]
      omega
    rw [read_of_short size, read_snd]
    simp [Reader.fault, never]
  | reader =>
    obtain ⟨rest, offset⟩ := state
    have allowed : reader.allowed count = left := by
      simp [Reader.allowed, offset, Nat.le_of_lt short]
    have size : (reader.rest.take (reader.allowed count)).length = left := by
      rw [allowed, rest, List.length_take, Nat.min_eq_left inside]
    rw [read_of_short (size.trans_ne (Nat.ne_of_lt short)), read_snd]
    simp [Reader.fault, offset, size]

open Records (get getLength getRecord body record lengthBytes Fits)

theorem run_reading (count : Nat) (reader : Reader) :
    (modifyGet fun reader : Reader => reader.read count :
        Transfer Reader (Except IoFault (List UInt8))).run.run reader =
      (.ok (reader.read count).1, (reader.read count).2) := rfl

theorem exists_get (cut : Cut (front ++ more) left fault reader) (whole : front.length ≤ left) :
    ∃ reader', (get front.length).run.run reader = (.ok front, reader') ∧
      Cut more (left - front.length) fault reader' := by
  obtain ⟨reader', read, cut'⟩ := cut.exists_read whole
  have step := run_reading front.length reader
  rw [read] at step
  exact ⟨reader', Transfer.run_bind step, cut'⟩

theorem run_get_fst (cut : Cut bytes left fault reader) (short : left < count) :
    ((get count).run.run reader).1 = .error (.io fault) := by
  have step := run_reading count reader
  rw [cut.read_fst short] at step
  exact congrArg Prod.fst (Transfer.run_bind step)

theorem run_getRecord_of_lt {ρ : Type} [Codec ρ] (cut : Cut bytes left fault reader)
    (short : left < 4) :
    ((getRecord : Transfer Reader (Option ρ)).run.run reader).1 = fault.absent := by
  have step := run_reading 4 reader
  rw [cut.read_fst short] at step
  cases fault with
  | full => exact cut.2.elim
  | ended =>
    have length : getLength.run.run reader = (.ok none, (reader.read 4).2) :=
      Transfer.run_bind step
    exact congrArg Prod.fst (Transfer.run_bind length)
  | reader =>
    have length : getLength.run.run reader = (.error (.io .reader), (reader.read 4).2) :=
      Transfer.run_bind step
    exact Transfer.run_bind_of_error (congrArg Prod.fst length)

variable {ρ : Type} [Codec ρ] {value : ρ}

theorem exists_getLength (fits : Fits value)
    (cut : Cut (record value ++ more) left fault reader) (whole : 4 ≤ left) :
    ∃ reader', getLength.run.run reader = (.ok (some (body value).length), reader') ∧
      Cut (body value ++ more) (left - 4) fault reader' := by
  rw [record, List.append_assoc] at cut
  obtain ⟨reader', read, cut'⟩ := cut.exists_read whole
  have step := run_reading 4 reader
  rw [show reader.read 4 = _ from read] at step
  refine ⟨reader', (Transfer.run_bind step).trans ?_, cut'⟩
  change (Except.ok (some (Records.lengthOf (lengthBytes _))), _) = _
  rw [Records.lengthOf_lengthBytes fits.short]

theorem run_getRecord_of_le (fits : Fits value)
    (cut : Cut (record value ++ more) left fault reader) (begun : 4 ≤ left)
    (short : left < (record value).length) :
    ((getRecord : Transfer Reader (Option ρ)).run.run reader).1 = .error (.io fault) := by
  obtain ⟨reader', length, cut'⟩ := exists_getLength fits cut begun
  have inside : left - 4 < (body value).length := by
    rw [record, List.length_append] at short
    exact Nat.sub_lt_left_of_lt_add begun short
  exact (congrArg Prod.fst (Transfer.run_bind length)).trans
    (Transfer.run_bind_of_error (cut'.run_get_fst inside))

theorem exists_getRecord [LawfulCodec ρ] (fits : Fits value)
    (cut : Cut (record value ++ more) left fault reader) (whole : (record value).length ≤ left) :
    ∃ reader', (getRecord : Transfer Reader (Option ρ)).run.run reader =
        (.ok (some value), reader') ∧
      Cut more (left - (record value).length) fault reader' := by
  rw [record, List.length_append] at whole
  have begun : 4 ≤ left := Nat.le_trans (Nat.le_add_right 4 _) whole
  obtain ⟨reader', length, cut'⟩ := exists_getLength fits cut begun
  obtain ⟨reader'', rest, cut''⟩ := cut'.exists_get (Nat.le_sub_of_add_le' whole)
  refine ⟨reader'', ?_, ?_⟩
  · refine (Transfer.run_bind length).trans ((Transfer.run_bind rest).trans ?_)
    rw [fits.decodes]
    rfl
  · rw [record, List.length_append, ← Nat.sub_sub]
    exact cut''

open Records (getMetadata magic formatVersion)

/-- A transfer that turns the absence of a record into an error. -/
theorem run_missing {τ : Type} {next : Option ρ → Transfer Reader τ} {missing : SnapshotError}
    (cut : Cut bytes left fault reader) (short : left < 4)
    (throws : ∀ reader : Reader, ((next none).run.run reader).1 = .error missing) :
    ((getRecord >>= next).run.run reader).1 = .error (fault.lapse (some missing)) := by
  have absence := run_getRecord_of_lt (ρ := ρ) cut short
  cases fault with
  | full => exact cut.2.elim
  | ended =>
    have ended : (getRecord : Transfer Reader (Option ρ)).run.run reader = (.ok none, _) :=
      Prod.ext absence rfl
    exact (congrArg Prod.fst (Transfer.run_bind ended)).trans (throws _)
  | reader => exact Transfer.run_bind_of_error absence

variable {metadata : Metadata} [Codec Metadata]

theorem run_getMetadata_fst (fits : Fits metadata)
    (cut : Cut (magic ++ ([formatVersion] ++ (record metadata ++ more))) left fault reader)
    (short : left < 5 + (record metadata).length) :
    (getMetadata.run.run reader).1 = .error (fault.lapse
      (if 5 ≤ left ∧ left < 9 then some (.invalidFormat .endedBeforeMetadata) else none)) := by
  rw [← List.append_assoc] at cut
  by_cases header : left < 5
  · rw [if_neg fun inside => absurd header (Nat.not_lt.mpr inside.1), IoFault.lapse_none]
    exact Transfer.run_bind_of_error (cut.run_get_fst header)
  have header := Nat.not_lt.mp header
  obtain ⟨reader', opening, cut'⟩ := cut.exists_get header
  refine (congrArg Prod.fst (Transfer.run_bind opening)).trans ?_
  rw [if_neg (by decide), if_neg (by decide)]
  by_cases length : left < 9
  · rw [if_pos ⟨header, length⟩]
    exact cut'.run_missing (Nat.sub_lt_left_of_lt_add header length) fun _ => rfl
  · have begun := Nat.not_lt.mp length
    rw [if_neg fun inside => length inside.2, IoFault.lapse_none]
    exact Transfer.run_bind_of_error (cut'.run_getRecord_of_le fits
      (Nat.le_sub_of_add_le' begun) (Nat.sub_lt_left_of_lt_add header short))

theorem exists_getMetadata [LawfulCodec Metadata] (fits : Fits metadata)
    (cut : Cut (magic ++ ([formatVersion] ++ (record metadata ++ more))) left fault reader)
    (whole : 5 + (record metadata).length ≤ left) :
    ∃ reader', getMetadata.run.run reader = (.ok metadata, reader') ∧
      Cut more (left - (5 + (record metadata).length)) fault reader' := by
  rw [← List.append_assoc] at cut
  obtain ⟨reader', opening, cut'⟩ := cut.exists_get (Nat.le_trans (Nat.le_add_right 5 _) whole)
  obtain ⟨reader'', record, cut''⟩ := cut'.exists_getRecord fits (Nat.le_sub_of_add_le' whole)
  refine ⟨reader'', ?_, ?_⟩
  · refine (Transfer.run_bind opening).trans ?_
    rw [if_neg (by decide), if_neg (by decide)]
    exact Transfer.run_bind record
  · rw [← Nat.sub_sub]
    exact cut''

variable [Codec (Array α)] [LawfulCodec (Array α)] {before after : List (Array α)}
  {items : Array α}

/-- Arrays are read up to the one whose record the cut lies in. -/
theorem run_readArrays_fst (fits : ∀ array ∈ before ++ items :: after, Fits array)
    (cut : Cut ((before ++ items :: after).flatMap record) left fault reader)
    (past : (before.flatMap record).length ≤ left)
    (short : left < (before.flatMap record).length + (record items).length) (index : Nat)
    (contents : Array α) :
    ((Snapshot.readArrays (ω := Reader) index ((before ++ items :: after).map Array.size)
        contents).run.run reader).1 = .error (fault.lapse
      (if left < (before.flatMap record).length + 4 then
        some (.missingArray (index + before.length))
      else none)) := by
  induction before generalizing left reader index contents with
  | nil =>
    rw [List.flatMap_nil, List.length_nil, Nat.zero_add] at short
    rw [List.flatMap_nil, List.length_nil, Nat.zero_add]
    rw [List.nil_append, List.flatMap_cons] at cut
    rw [List.nil_append, List.map_cons, Snapshot.readArrays]
    by_cases length : left < 4
    · rw [if_pos length]
      exact cut.run_missing length fun _ => rfl
    · rw [if_neg length, IoFault.lapse_none]
      exact Transfer.run_bind_of_error (cut.run_getRecord_of_le (fits items (by simp))
        (Nat.not_lt.mp length) short)
  | cons first rest ih =>
    rw [List.flatMap_cons, List.length_append] at past short
    rw [List.cons_append, List.flatMap_cons] at cut
    have whole : (record first).length ≤ left := Nat.le_trans (Nat.le_add_right ..) past
    obtain ⟨reader', opening, cut'⟩ :=
      cut.exists_getRecord (fits first (by simp)) whole
    have later := ih (fun array member => fits array (by simp at member; simp [member])) cut'
      (Nat.le_sub_of_add_le' past) (by omega) (index + 1) (contents ++ first.take first.size)
    have read : ((Source.readArray index : Transfer Reader (Option (Array α)))).run.run reader =
        (.ok (some first), reader') := opening
    rw [List.cons_append, List.map_cons, Snapshot.run_readArrays_cons, read]
    dsimp only
    rw [if_neg (Nat.lt_irrefl _), later]
    have bound : left - (record first).length < (rest.flatMap record).length + 4 ↔
        left < ((first :: rest).flatMap record).length + 4 := by
      rw [List.flatMap_cons, List.length_append]
      omega
    have number : index + 1 + rest.length = index + (first :: rest).length := by
      rw [List.length_cons]
      omega
    simp only [bound, number]

end Reader.Cut

/-! ### Restorations that are cut off -/

namespace Records

theorem length_record {ρ : Type} [Codec ρ] (value : ρ) :
    (record value).length = 4 + (body value).length := List.length_append

variable [Codec (Array α)]

theorem exists_split {items : List (Array α)} {left : Nat}
    (short : left < (items.flatMap record).length) :
    ∃ before array after, items = before ++ array :: after ∧
      (before.flatMap record).length ≤ left ∧
      left < (before.flatMap record).length + (record array).length := by
  induction items generalizing left with
  | nil => exact absurd short (Nat.not_lt_zero _)
  | cons first rest ih =>
    rcases Nat.lt_or_ge left (record first).length with inside | past
    · exact ⟨[], first, rest, rfl, Nat.zero_le _, by simpa using inside⟩
    · rw [List.flatMap_cons, List.length_append] at short
      obtain ⟨before, array, after, rfl, begun, within⟩ :=
        ih (Nat.sub_lt_left_of_lt_add past short)
      refine ⟨first :: before, array, after, rfl, ?_, ?_⟩
      · rw [List.flatMap_cons, List.length_append]
        omega
      · rw [List.flatMap_cons, List.length_append]
        omega

variable [Codec Metadata]

/-- Where an offset lies in the bytes of a snapshot: before the length of a record is complete, of
which the absence is the given error, or inside the header or the body of a record. -/
inductive CutAt (s : Sequence α) (offset : Nat) : Option SnapshotError → Prop
  | header (inside : offset < 5) : CutAt s offset none
  | metadataLength (past : 5 ≤ offset) (inside : offset < 9) :
      CutAt s offset (some (.invalidFormat .endedBeforeMetadata))
  | metadata (past : 9 ≤ offset) (inside : offset < 5 + (record s.metadata).length) :
      CutAt s offset none
  | arrayLength {before after : List (Array α)} {items : Array α}
      (split : Snapshot.arrays s = before ++ items :: after) {start : Nat}
      (starts : start = 5 + (record s.metadata).length + (before.flatMap record).length)
      (past : start ≤ offset) (inside : offset < start + 4) :
      CutAt s offset (some (.missingArray before.length))
  | array {before after : List (Array α)} {items : Array α}
      (split : Snapshot.arrays s = before ++ items :: after) {start : Nat}
      (starts : start = 5 + (record s.metadata).length + (before.flatMap record).length)
      (past : start + 4 ≤ offset) (inside : offset < start + (record items).length) :
      CutAt s offset none

theorem length_bytes (s : Sequence α) : (bytes s).length =
    5 + (record s.metadata).length + ((Snapshot.arrays s).flatMap record).length := by
  have opening : magic.length = 4 := by decide
  simp only [bytes, List.length_append, List.length_singleton, opening]
  omega

/-- Every offset before the end lies somewhere. -/
theorem exists_cutAt {s : Sequence α} {offset : Nat} (inside : offset < (bytes s).length) :
    ∃ missing, CutAt s offset missing := by
  rw [length_bytes] at inside
  rcases Nat.lt_or_ge offset 5 with header | past
  · exact ⟨_, .header header⟩
  rcases Nat.lt_or_ge offset 9 with length | past'
  · exact ⟨_, .metadataLength past length⟩
  rcases Nat.lt_or_ge offset (5 + (record s.metadata).length) with metadata | behind
  · exact ⟨_, .metadata past' metadata⟩
  obtain ⟨before, items, after, split, begun, within⟩ :=
    exists_split (Nat.sub_lt_left_of_lt_add behind inside)
  rcases Nat.lt_or_ge offset (5 + (record s.metadata).length + (before.flatMap record).length + 4)
    with length | body
  · exact ⟨_, .arrayLength split rfl (by omega) length⟩
  · exact ⟨_, .array split rfl body (by omega)⟩

variable {s : Sequence α} {offset : Nat} {fault : IoFault} {reader : Reader}

open Snapshot (restore)

variable [LawfulCodec Metadata] [LawfulCodec (Array α)] [Allocator σ α] [LawfulAllocator σ α]
  [Inhabited α]

/-- A restoration from a reader that is cut off ends in what the cut lies in. -/
theorem restore_of_cutAt (valid : s.Valid) (fit : Fit s)
    (cut : Reader.Cut (bytes s) offset fault reader) {missing : Option SnapshotError}
    (lies : CutAt s offset missing) (depot : Depot σ)
    (sound : LawfulAllocator.Sound depot.allocator) :
    ((restore (α := α) reader).run depot).1.1 = .error (fault.lapse missing) := by
  have body := length_record s.metadata
  by_cases early : offset < 5 + (record s.metadata).length
  · apply Snapshot.restore_of_metadata_error
    refine (cut.run_getMetadata_fst fit.metadata early).trans ?_
    cases lies with
    | header inside => rw [if_neg (by omega)]
    | metadataLength past inside => rw [if_pos ⟨past, inside⟩]
    | metadata past inside => rw [if_neg (by omega)]
    | arrayLength split starts past inside => omega
    | array split starts past inside => omega
  · have whole := Nat.not_lt.mp early
    obtain ⟨reader', header, cut'⟩ := cut.exists_getMetadata fit.metadata whole
    refine Snapshot.restore_of_arrays_error valid header ?_ depot sound
    cases lies with
    | header inside => omega
    | metadataLength past inside => omega
    | metadata past inside => exact absurd inside early
    | arrayLength split starts past inside =>
      rename_i before after items start
      have fits := fit.arrays
      rw [split] at fits cut' ⊢
      refine (cut'.run_readArrays_fst fits (by omega) ?_ 0 #[]).trans ?_
      · have length := length_record items
        omega
      · rw [if_pos (by omega), Nat.zero_add]
    | array split starts past inside =>
      have fits := fit.arrays
      rw [split] at fits cut' ⊢
      refine (cut'.run_readArrays_fst fits (by omega) (by omega) 0 #[]).trans ?_
      rw [if_neg (by omega)]

end Records

namespace Sequence

variable {τ : Type} [Allocator τ α] [LawfulAllocator τ α] [BEq α] [Inhabited α]
  [Codec Metadata] [Codec (Array α)] [LawfulCodec Metadata] [LawfulCodec (Array α)]
  {s : Sequence α}

open Records (CutAt)
open Snapshot (Released)

/-- The bytes that a sequence has been saved as are not restored when they are cut off, at any
offset. If they end there, the error says where that is: before a record, in which case it is the
error of the absence of that record, or inside something. If the reader gives up there, it is its
error. Either way all that was rented has gone back. -/
theorem Reachable.never_restored_from_part (reachable : s.Reachable) {depot : Depot σ}
    {writer : Writer} (saved : ((Snapshot.save s ({} : Writer)).run depot).1 = (.ok (), writer))
    {offset : Nat} (inside : offset < writer.written.size) (depot' : Depot τ)
    (sound : LawfulAllocator.Sound depot'.allocator) :
    let bytes := writer.written.toList
    let ending : Reader := { rest := bytes.take offset }
    let failing : Reader := { rest := bytes, failsAt := some offset }
    let ended := (Snapshot.restore (α := α) ending).run depot'
    let failed := (Snapshot.restore (α := α) failing).run depot'
    (∃ missing, CutAt s offset missing) ∧
      (∀ missing, CutAt s offset missing → ended.1.1 = .error (missing.getD (.io .ended))) ∧
      failed.1.1 = .error (.io .reader) ∧ Released depot' ended.2 ∧ Released depot' failed.2 := by
  have fit := Records.fit_of_saved saved
  have written : writer.written.toList = Records.bytes s := by
    have all := saved.symm.trans (Snapshot.save_of_write (Records.run_write fit #[]) depot)
    rw [(Prod.mk.inj all).2]
    simp
  have within : offset < (Records.bytes s).length := by
    rwa [← written, Array.length_toList]
  intro bytes ending failing ended failed
  have cut : Reader.Cut (Records.bytes s) offset .ended ending :=
    written ▸ .truncated (written ▸ Nat.le_of_lt within) 0
  have cut' : Reader.Cut (Records.bytes s) offset .reader failing :=
    written ▸ .failing (written ▸ Nat.le_of_lt within)
  obtain ⟨somewhere, lies⟩ := Records.exists_cutAt within
  have answer (missing : Option SnapshotError) (lies : CutAt s offset missing) :
      ended.1.1 = .error (missing.getD (.io .ended)) := by
    rw [Records.restore_of_cutAt reachable.valid fit cut lies depot' sound]
    cases missing <;> rfl
  have answer' : failed.1.1 = .error (.io .reader) := by
    rw [Records.restore_of_cutAt reachable.valid fit cut' lies depot' sound]
    cases somewhere <;> rfl
  exact ⟨⟨somewhere, lies⟩, answer, answer', Snapshot.released_of_failed sound (answer _ lies),
    Snapshot.released_of_failed sound answer'⟩

end Sequence

/-! ### An example -/

namespace Sequence

open Wire
open Records (CutAt record)

/-- Three arrays are saved as 63 bytes. The length of the last array starts after 55 of them, and the
array before it after 34. -/
theorem pruned_never_restored_from_part :
    let depot : Depot (Heap UInt8) := { allocator := ⟨⟩ }
    let answer (reader : Reader) := ((Snapshot.restore (α := UInt8) reader).run depot).1.1
    ∃ writer, ((Snapshot.save pruned ({} : Writer)).run depot).1 = (.ok (), writer) ∧
      writer.written.size = 63 ∧
      answer { rest := writer.written.toList.take 57 } = .error (.missingArray 2) ∧
      answer { rest := writer.written.toList.take 50 } = .error (.io .ended) ∧
      answer { rest := writer.written.toList, failsAt := some 57 } = .error (.io .reader) := by
  intro depot answer
  have saved := Snapshot.save_of_write (Records.run_write fit_pruned #[]) depot
  generalize here : ({ written := (#[] : Array UInt8) ++ Records.bytes pruned } : Writer) =
    writer at saved
  have size : writer.written.size = 63 := by
    rw [← here]
    decide +kernel
  have inside : 57 < writer.written.size := by rw [size]; decide
  have inside' : 50 < writer.written.size := by rw [size]; decide
  obtain ⟨-, ended, failed, -⟩ :=
    Reachable.never_restored_from_part reachable_pruned saved inside depot trivial
  obtain ⟨-, ended', -⟩ :=
    Reachable.never_restored_from_part reachable_pruned saved inside' depot trivial
  have last : Snapshot.arrays pruned =
      (Snapshot.arrays pruned).take 2 ++ #[33, 34, 35] :: [] := by decide +kernel
  have middle : Snapshot.arrays pruned = (Snapshot.arrays pruned).take 1 ++
      (Array.range' 17 16).map Nat.toUInt8 :: [#[33, 34, 35]] := by decide +kernel
  have index : ((Snapshot.arrays pruned).take 2).length = 2 := by decide +kernel
  have start : 55 = 5 + (record pruned.metadata).length +
      (((Snapshot.arrays pruned).take 2).flatMap record).length := by decide +kernel
  have start' : 34 = 5 + (record pruned.metadata).length +
      (((Snapshot.arrays pruned).take 1).flatMap record).length := by decide +kernel
  have length : CutAt pruned 57 (some (.missingArray ((Snapshot.arrays pruned).take 2).length)) :=
    .arrayLength last start (by decide) (by decide)
  have body : CutAt pruned 50 none := .array middle start' (by decide) (by decide +kernel)
  rw [index] at length
  exact ⟨writer, saved, size, ended _ length, ended' _ body, failed⟩

end Sequence

end Segmented
