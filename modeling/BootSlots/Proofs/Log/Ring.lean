import BootSlots.Log.Basic

/-
  The ring against a list without bounds. A journal keeps every message that passes the level in force when it
  comes, since the creation of the log; the ring keeps the last 16 that came after the last clear, at places that
  go round. Whatever was recorded, filtered and cleared before, the two show the same.

  Proved:
  * `Reader.advance_eq`: where a reader has come to, read off the log.
  * `Mirrors.call`, `Mirrors.after`: each call keeps ring and journal together, so a history does.
  * `shows_journal`: all that the log shows of its entries, against the journal.
-/

namespace BootSlots.Log

/-! ## Histories -/

/-- A call that changes the log. -/
inductive Call where
  | record (level : Level) (component : String) (parts : List String)
  | clear
  | setMinLevel (level : Level)

/-- The log after one call. -/
def call (l : Log) : Call → Log
  | .record level component parts => l.record level component parts
  | .clear => l.clear
  | .setMinLevel level => l.setMinLevel level

/-- The log after a history. -/
def after (l : Log) (calls : List Call) : Log :=
  calls.foldl call l

/-- What a call hands in to be recorded. -/
structure Note where
  level : Level
  component : String
  parts : List String

/-- The entry of a note; `k` counts the notes before it, and the entry carries the count as a word. -/
def Note.entry (n : Note) (k : Nat) : Entry :=
  ⟨n.level, UInt32.ofNat k, n.component, .ofParts n.parts⟩

/-- A log without bounds. -/
structure Journal where
  /-- All notes that passed, since the creation of the log. -/
  notes : List Note
  /-- Number of notes before the last clear. -/
  cleared : Nat
  minLevel : Level

namespace Journal

def empty : Journal := ⟨[], 0, .info⟩

/-- The journal after one call. -/
def call (j : Journal) : Call → Journal
  | .record level component parts =>
    if level.rank ≤ j.minLevel.rank then { j with notes := j.notes ++ [⟨level, component, parts⟩] } else j
  | .clear => { j with cleared := j.notes.length }
  | .setMinLevel level => { j with minLevel := level }

/-- The journal after a history. -/
def after (j : Journal) (calls : List Call) : Journal :=
  calls.foldl call j

/-- All entries since the creation of the log, numbered from 0 on. -/
def recorded (j : Journal) : List Entry :=
  j.notes.mapIdx fun k n => n.entry k

/-- The entries since the last clear. -/
def entries (j : Journal) : List Entry :=
  j.recorded.drop j.cleared

/-- The last entries, as many as the ring has places. -/
def latest (j : Journal) : List Entry :=
  j.entries.drop (j.entries.length - capacity)

theorem length_recorded (j : Journal) : j.recorded.length = j.notes.length :=
  List.length_mapIdx

theorem length_latest (j : Journal) : j.latest.length = min capacity j.entries.length := by
  rw [latest, List.length_drop]
  omega

theorem getElem?_latest (j : Journal) (k : Nat) :
    j.latest[k]? = j.entries[j.entries.length - capacity + k]? := by
  rw [latest, List.getElem?_drop]

/-- A note that passes is entered last. -/
theorem entries_append {j : Journal} (hle : j.cleared ≤ j.notes.length) (n : Note) :
    ({ j with notes := j.notes ++ [n] } : Journal).entries = j.entries ++ [n.entry j.notes.length] := by
  have hle' : j.cleared ≤ j.recorded.length := by
    rw [length_recorded]
    exact hle
  unfold entries
  rw [← List.drop_append_of_le_length hle', recorded, List.mapIdx_concat]
  rfl

theorem entries_clear (j : Journal) : (j.call .clear).entries = [] := by
  unfold entries
  apply List.drop_eq_nil_of_le
  rw [length_recorded]
  exact Nat.le_refl _

/-- The entry with `k` before it since the creation of the log carries `k`, as far as a word goes. -/
theorem seq_of_recorded {j : Journal} {k : Nat} {e : Entry} (h : j.recorded[k]? = some e) :
    e.seq.toNat = k % UInt32.size := by
  unfold recorded at h
  rw [List.getElem?_mapIdx, Option.map_eq_some_iff] at h
  obtain ⟨n, -, hn⟩ := h
  rw [← hn]
  exact UInt32.toNat_ofNat'

end Journal

/-! ## Readers -/

namespace Reader

/-- The reader after `k` steps. -/
def advance (r : Reader) : Nat → Reader
  | 0 => r
  | k + 1 => r.next.2.advance k

/-- A reader moves on one entry at a time and stays at the end. -/
theorem advance_eq (r : Reader) (k : Nat) :
    r.advance k = ⟨r.log, r.index + min k r.remaining, r.remaining - k⟩ := by
  induction k generalizing r with
  | zero => simp [advance]
  | succ k ih =>
    obtain ⟨l, index, remaining⟩ := r
    rw [advance, ih]
    unfold next
    cases remaining with
    | zero => simp
    | succ n =>
      simp only [mk.injEq, true_and]
      omega

/-- Where step after step yields the elements of a list, `take` yields its first elements. -/
theorem take_eq {r : Reader} {es : List Entry} (h : ∀ k, (r.advance k).next.1 = es[k]?) (n : Nat) :
    (r.take n).1 = es.take n := by
  induction n generalizing r es with
  | zero => rfl
  | succ n ih =>
    have hfirst : r.next.1 = es[0]? := h 0
    have hrest : ∀ k, (r.next.2.advance k).next.1 = es[k + 1]? := fun k => h (k + 1)
    unfold take
    cases es with
    | nil =>
      generalize r.next = p at hfirst
      obtain ⟨_, _⟩ := p
      simp only [List.getElem?_nil] at hfirst
      rw [hfirst]
      rfl
    | cons e es =>
      have hih := ih hrest
      generalize r.next = p at hfirst hih
      obtain ⟨_, r'⟩ := p
      simp only [List.getElem?_cons_zero] at hfirst
      rw [hfirst, List.take_succ_cons, ← hih]

end Reader

/-! ## Ring and journal -/

/-- The place of the ring that the entry with `k` before it goes to. -/
def place (k : Nat) : Fin capacity :=
  ⟨k % capacity, Nat.mod_lt _ (by decide)⟩

theorem place_add_one (k : Nat) : place k + 1 = place (k + 1) := by
  apply Fin.ext
  rw [Fin.val_add]
  exact Nat.mod_add_mod k capacity 1

/-- The places of the last entries are all different. -/
theorem place_ne {k n : Nat} (hlt : k < n) (hnear : n < k + capacity) : (place n).val ≠ (place k).val := by
  show n % 16 ≠ k % 16
  have : n < k + 16 := hnear
  omega

theorem get_set (slots : Vector (Option Entry) capacity) (p q : Fin capacity) (e : Option Entry) :
    (slots.set p e).get q = if p.val = q.val then e else slots.get q :=
  Vector.getElem_set p.isLt q.isLt

/-- The ring holds the last entries of the journal, each at its place. -/
structure Mirrors (l : Log) (j : Journal) : Prop where
  cleared_le : j.cleared ≤ j.notes.length
  minLevel : l.minLevel = j.minLevel
  nextSeq : l.nextSeq = UInt32.ofNat j.notes.length
  count : l.count = min capacity j.entries.length
  next : l.next = place j.entries.length
  slots : ∀ k, k < j.entries.length → j.entries.length ≤ k + capacity →
    l.slots.get (place k) = j.entries[k]?

variable {l : Log} {j : Journal}

theorem mirrors_empty : Mirrors .empty .empty where
  cleared_le := Nat.le_refl 0
  minLevel := rfl
  nextSeq := rfl
  count := rfl
  next := rfl
  slots k hk := absurd hk (Nat.not_lt_zero k)

theorem Mirrors.setMinLevel (h : l.Mirrors j) (level : Level) :
    (l.call (.setMinLevel level)).Mirrors (j.call (.setMinLevel level)) :=
  ⟨h.cleared_le, rfl, h.nextSeq, h.count, h.next, h.slots⟩

/-- A clear empties the ring and starts it over; level and number stay. -/
theorem Mirrors.clear (h : l.Mirrors j) : (l.call .clear).Mirrors (j.call .clear) := by
  have hnone := j.entries_clear
  refine ⟨Nat.le_refl _, h.minLevel, h.nextSeq, ?_, ?_, ?_⟩
  · rw [hnone]
    rfl
  · rw [hnone]
    rfl
  · intro k hk
    rw [hnone] at hk
    exact absurd hk (Nat.not_lt_zero k)

/-- A note that passes takes the place after the last, which is that of the oldest where the ring is full. -/
theorem Mirrors.record (h : l.Mirrors j) (level : Level) (component : String) (parts : List String) :
    (l.call (.record level component parts)).Mirrors (j.call (.record level component parts)) := by
  unfold call Journal.call Log.record recordIn records
  rw [h.minLevel]
  by_cases hpass : level.rank ≤ j.minLevel.rank
  · simp only [hpass, decide_true, if_true]
    have hentries := Journal.entries_append h.cleared_le ⟨level, component, parts⟩
    have hlength := congrArg List.length hentries
    rw [List.length_append, List.length_singleton] at hlength
    refine ⟨?_, rfl, ?_, ?_, ?_, ?_⟩
    · rw [List.length_append]
      exact Nat.le_add_right_of_le h.cleared_le
    · rw [List.length_append, UInt32.ofNat_add, h.nextSeq]
      rfl
    · show (if l.count < 16 then l.count + 1 else l.count) = _
      have hcount : l.count = min 16 j.entries.length := h.count
      rw [hlength]
      show _ = min 16 _
      split <;> omega
    · rw [hlength, ← place_add_one, ← h.next]
    · intro k hk hnear
      rw [hlength] at hk hnear
      rw [hentries]
      rw [get_set, h.next]
      by_cases hlast : k = j.entries.length
      · subst hlast
        rw [if_pos rfl, List.getElem?_concat_length, h.nextSeq]
        rfl
      · have hlt : k < j.entries.length := by omega
        rw [if_neg (place_ne hlt (by omega)), List.getElem?_append_left hlt]
        exact h.slots k hlt (by omega)
  · simp only [hpass, decide_false, if_false]
    exact h

theorem Mirrors.call (h : l.Mirrors j) (c : Call) : (l.call c).Mirrors (j.call c) := by
  cases c with
  | record level component parts => exact h.record level component parts
  | clear => exact h.clear
  | setMinLevel level => exact h.setMinLevel level

theorem Mirrors.after (h : l.Mirrors j) (calls : List Call) : (l.after calls).Mirrors (j.after calls) := by
  induction calls generalizing l j with
  | nil => exact h
  | cons c calls ih => exact ih (h.call c)

/-- The place of the oldest entry, with `k` entries after it. -/
theorem Mirrors.place_oldest (h : l.Mirrors j) (k : Nat) :
    place (l.oldest + k) = place (j.entries.length - capacity + k) := by
  have hcount : l.count = min 16 j.entries.length := h.count
  have hnext : l.next.val = j.entries.length % 16 := congrArg Fin.val h.next
  apply Fin.ext
  unfold place oldest
  show ((if l.count < 16 then 0 else l.next.val) + k) % 16 = (j.entries.length - 16 + k) % 16
  split <;> omega

/-- Step after step a reader yields the last entries, and then nothing. -/
theorem Mirrors.next_advance (h : l.Mirrors j) (k : Nat) :
    (l.reader.advance k).next.1 = j.latest[k]? := by
  have hlength := j.length_latest
  rw [← h.count] at hlength
  rw [Reader.advance_eq]
  show (Reader.next ⟨l, 0 + min k l.count, l.count - k⟩).1 = _
  by_cases hk : k < l.count
  · have hrest : l.count - k = l.count - k - 1 + 1 := by omega
    rw [hrest, Nat.zero_add, Nat.min_eq_left (Nat.le_of_lt hk), Journal.getElem?_latest]
    show l.slots.get (place (l.oldest + k)) = _
    have hcount := h.count
    rw [h.place_oldest]
    exact h.slots _ (by omega) (by omega)
  · rw [Nat.sub_eq_zero_of_le (Nat.not_lt.mp hk), List.getElem?_eq_none (by omega)]
    rfl

theorem Mirrors.toList (h : l.Mirrors j) : l.toList = j.latest := by
  unfold Log.toList
  rw [Reader.take_eq h.next_advance, h.count, ← j.length_latest]
  exact List.take_length

/-! ## What the log shows -/

/-- What a log shows of its entries, where `j` is the journal of its history. -/
structure Shows (l : Log) (j : Journal) : Prop where
  /-- A reader yields the last entries in order, one at each step, and nothing after them. -/
  reads : ∀ k, (l.reader.advance k).next.1 = j.latest[k]?
  /-- At each step it tells how many are still to come. -/
  remaining : ∀ k, (l.reader.advance k).remaining = min capacity j.entries.length - k
  toList : l.toList = j.latest
  count : l.count = min capacity j.entries.length
  isEmpty : l.isEmpty = true ↔ j.entries = []
  contains : ∀ level needle, l.contains level needle = true ↔
    ∃ e ∈ j.latest, e.level = level ∧ needle.toList <:+: e.message.text.toList
  /-- Entries are numbered through since the creation of the log, whatever was cleared. -/
  numbered : ∀ k e, j.recorded[k]? = some e → e.seq.toNat = k % UInt32.size

theorem Mirrors.isEmpty_iff (h : l.Mirrors j) : l.isEmpty = true ↔ j.entries = [] := by
  have hcount : l.count = min 16 j.entries.length := h.count
  unfold Log.isEmpty
  rw [beq_iff_eq, ← List.length_eq_zero_iff]
  omega

theorem Mirrors.contains_iff (h : l.Mirrors j) (level : Level) (needle : String) :
    l.contains level needle = true ↔
      ∃ e ∈ j.latest, e.level = level ∧ needle.toList <:+: e.message.text.toList := by
  unfold Log.contains
  rw [h.toList, List.any_eq_true]
  simp only [Bool.and_eq_true, beq_iff_eq, Text.occurs_iff]

theorem Mirrors.shows (h : l.Mirrors j) : l.Shows j where
  reads := h.next_advance
  remaining k := by
    rw [Reader.advance_eq, ← h.count]
    rfl
  toList := h.toList
  count := h.count
  isEmpty := h.isEmpty_iff
  contains := h.contains_iff
  numbered _ _ hrecorded := Journal.seq_of_recorded hrecorded

/-- Over any history of records, clears and changes of the level, the ring shows what the journal says. -/
theorem shows_journal (calls : List Call) : (empty.after calls).Shows (Journal.empty.after calls) :=
  (mirrors_empty.after calls).shows

end BootSlots.Log
