import BootSlots.Log.Basic

/-
  What a message keeps of its parts. Each part is cut at its first character without room, and the next part
  goes on right there, so a long message may lack characters in its middle. `Cut` states the rule for parts
  and what is kept of each, in bytes from the start of the message; it leaves no choice. Of the buffer that
  keeps the text no more is used than `TextBuffer.Lawful` says, one character at a time.

  Proved:
  * `cutAt_fitting`, `CutAt.unique`: the rule for one part, which gets the room that is left for it.
  * `cut_keptParts`, `Cut.unique`: the rule for all parts, by induction on the parts.
  * `cut_of_fits`, `toList_join_keptParts_of_ascii`: where nothing is lost, and where only the end is lost.
  * `TextBuffer.Lawful.text_writeChars`, `TextBuffer.Lawful.text_ofParts`: what a buffer is left with.
  * `recorded_message`: the message that a log enters.
-/

namespace BootSlots.Log

/-! ## One part -/

/-- The characters up to the first one that does not fit into `room` bytes. -/
def fitting (room : Nat) : List Char → List Char
  | [] => []
  | c :: cs => if c.utf8Size ≤ room then c :: fitting (room - c.utf8Size) cs else []

theorem fitting_prefix (room : Nat) (cs : List Char) : fitting room cs <+: cs := by
  induction cs generalizing room with
  | nil => exact List.nil_prefix
  | cons c cs ih =>
    rw [fitting]
    split
    · exact List.cons_prefix_cons.mpr ⟨rfl, ih _⟩
    · exact List.nil_prefix

theorem utf8ByteSize_ofList_cons (c : Char) (cs : List Char) :
    (String.ofList (c :: cs)).utf8ByteSize = c.utf8Size + (String.ofList cs).utf8ByteSize := by
  rw [String.ofList_cons, String.utf8ByteSize_append, String.utf8ByteSize_singleton]

theorem utf8ByteSize_fitting (room : Nat) (cs : List Char) :
    (String.ofList (fitting room cs)).utf8ByteSize ≤ room := by
  induction cs generalizing room with
  | nil => simp [fitting]
  | cons c cs ih =>
    rw [fitting]
    split
    · have := ih (room - c.utf8Size)
      rw [utf8ByteSize_ofList_cons]
      omega
    · simp

/-- `kept` is what `room` bytes hold of one part: all of it, or what comes before a character without room. -/
structure CutAt (room : Nat) (part kept : String) : Prop where
  starts : kept.toList <+: part.toList
  fits : kept.utf8ByteSize ≤ room
  cut : ∀ c rest, part.toList = kept.toList ++ c :: rest → room < kept.utf8ByteSize + c.utf8Size

/-- The first character that is left out has no room. -/
theorem lt_of_fitting_append {room : Nat} {cs rest : List Char} {c : Char}
    (h : cs = fitting room cs ++ c :: rest) :
    room < (String.ofList (fitting room cs)).utf8ByteSize + c.utf8Size := by
  induction cs generalizing room with
  | nil => simp [fitting] at h
  | cons b cs ih =>
    rw [fitting] at h ⊢
    by_cases hroom : b.utf8Size ≤ room
    · rw [if_pos hroom, List.cons_append] at h
      have := ih (List.cons.inj h).2
      rw [if_pos hroom, utf8ByteSize_ofList_cons]
      omega
    · rw [if_neg hroom, List.nil_append] at h
      obtain ⟨rfl, -⟩ := List.cons.inj h
      rw [if_neg hroom]
      exact Nat.lt_add_left _ (Nat.not_le.mp hroom)

theorem cutAt_fitting (room : Nat) (part : String) :
    CutAt room part (String.ofList (fitting room part.toList)) where
  starts := by
    rw [String.toList_ofList]
    exact fitting_prefix room part.toList
  fits := utf8ByteSize_fitting room part.toList
  cut c rest h := by
    rw [String.toList_ofList] at h
    exact lt_of_fitting_append h

/-- Of two initial parts that keep to the rule, the shorter one would have had room for a character more. -/
theorem CutAt.eq_of_prefix {room : Nat} {part k k' : String} (h : CutAt room part k)
    (h' : CutAt room part k') (hle : k.toList <+: k'.toList) : k = k' := by
  obtain ⟨more, hmore⟩ := hle
  obtain ⟨rest, hrest⟩ := h'.starts
  cases more with
  | nil =>
    rw [List.append_nil] at hmore
    exact String.toList_inj.mp hmore
  | cons c more =>
    have hcut := h.cut c (more ++ rest) (by rw [← hrest, ← hmore, List.append_assoc, List.cons_append])
    have hk' : k' = k ++ String.ofList (c :: more) := by
      apply String.toList_inj.mp
      rw [String.toList_append, String.toList_ofList, hmore]
    have hsize := congrArg String.utf8ByteSize hk'
    rw [String.utf8ByteSize_append, utf8ByteSize_ofList_cons] at hsize
    have := h'.fits
    omega

theorem CutAt.unique {room : Nat} {part k k' : String} (h : CutAt room part k)
    (h' : CutAt room part k') : k = k' := by
  obtain hle | hle := List.prefix_or_prefix_of_prefix h.starts h'.starts
  · exact h.eq_of_prefix h' hle
  · exact (h'.eq_of_prefix h hle).symm

/-! ## All parts -/

/-- What a message of `room` bytes keeps of its parts: of each an initial part, and where that is not all of
it, the message up to there has no room for the character that comes next. -/
structure Cut (room : Nat) (parts kept : List String) : Prop where
  length : kept.length = parts.length
  fits : (String.join kept).utf8ByteSize ≤ room
  starts : ∀ (i : Nat) (part k : String), parts[i]? = some part → kept[i]? = some k →
    k.toList <+: part.toList
  cut : ∀ (i : Nat) (part k : String) (c : Char) (rest : List Char), parts[i]? = some part →
    kept[i]? = some k → part.toList = k.toList ++ c :: rest →
      room < (String.join (kept.take (i + 1))).utf8ByteSize + c.utf8Size

/-- What is kept of each part, one after the other. -/
def keptParts (room : Nat) : List String → List String
  | [] => []
  | part :: parts =>
    let k := String.ofList (fitting room part.toList)
    k :: keptParts (room - k.utf8ByteSize) parts

variable {room : Nat} {part k : String} {parts ks : List String}

/-- Parts that fit together keep to the rule as they are. -/
theorem cut_of_fits (h : (String.join parts).utf8ByteSize ≤ room) : Cut room parts parts where
  length := rfl
  fits := h
  starts i part k hpart hkept := by
    obtain rfl := Option.some.inj (hpart.symm.trans hkept)
    exact List.prefix_refl _
  cut i part k c rest hpart hkept hcut := by
    obtain rfl := Option.some.inj (hpart.symm.trans hkept)
    exact absurd (List.self_eq_append_right.mp hcut) (List.cons_ne_nil c rest)

theorem Cut.cons (hk : CutAt room part k) (h : Cut (room - k.utf8ByteSize) parts ks) :
    Cut room (part :: parts) (k :: ks) where
  length := congrArg (· + 1) h.length
  fits := by
    have := hk.fits
    have := h.fits
    rw [String.join_cons, String.utf8ByteSize_append]
    omega
  starts i part' k' hpart hkept := by
    cases i with
    | zero =>
      obtain rfl := Option.some.inj hpart
      obtain rfl := Option.some.inj hkept
      exact hk.starts
    | succ i => exact h.starts i part' k' hpart hkept
  cut i part' k' c rest hpart hkept hcut := by
    rw [List.take_succ_cons, String.join_cons, String.utf8ByteSize_append]
    cases i with
    | zero =>
      obtain rfl := Option.some.inj hpart
      obtain rfl := Option.some.inj hkept
      have := hk.cut c rest hcut
      omega
    | succ i =>
      have := h.cut i part' k' c rest hpart hkept hcut
      omega

theorem Cut.uncons (h : Cut room (part :: parts) (k :: ks)) :
    CutAt room part k ∧ Cut (room - k.utf8ByteSize) parts ks := by
  have hfits := h.fits
  rw [String.join_cons, String.utf8ByteSize_append] at hfits
  refine ⟨⟨h.starts 0 part k rfl rfl, by omega, fun c rest hcut => ?_⟩,
    Nat.succ.inj h.length, by omega, fun i => h.starts (i + 1),
    fun i part' k' c rest hpart hkept hcut => ?_⟩
  · have := h.cut 0 part k c rest rfl rfl hcut
    rw [List.take_succ_cons, List.take_zero, String.join_cons, String.join_nil, String.append_empty] at this
    exact this
  · have := h.cut (i + 1) part' k' c rest hpart hkept hcut
    rw [List.take_succ_cons, String.join_cons, String.utf8ByteSize_append] at this
    omega

theorem cut_keptParts (room : Nat) (parts : List String) : Cut room parts (keptParts room parts) := by
  induction parts generalizing room with
  | nil => exact cut_of_fits (Nat.zero_le room)
  | cons part parts ih => exact .cons (cutAt_fitting room part) (ih _)

/-- The rule leaves no choice, by induction on the parts. -/
theorem Cut.unique {ks' : List String} (h : Cut room parts ks) (h' : Cut room parts ks') : ks = ks' := by
  induction parts generalizing room ks ks' with
  | nil =>
    rw [List.length_eq_zero_iff.mp h.length, List.length_eq_zero_iff.mp h'.length]
  | cons part parts ih =>
    obtain ⟨k, ks, rfl⟩ := List.exists_cons_of_length_eq_add_one h.length
    obtain ⟨k', ks', rfl⟩ := List.exists_cons_of_length_eq_add_one h'.length
    obtain ⟨hk, hks⟩ := h.uncons
    obtain ⟨hk', hks'⟩ := h'.uncons
    obtain rfl := hk.unique hk'
    rw [ih hks hks']

/-! ## Characters of one byte -/

theorem utf8Size_of_ascii {c : Char} (h : c.toNat < 128) : c.utf8Size = 1 :=
  Char.utf8Size_eq_one_iff.mpr (Nat.le_of_lt_succ h)

theorem fitting_of_ascii {cs : List Char} (h : ∀ c ∈ cs, c.toNat < 128) (room : Nat) :
    fitting room cs = cs.take room := by
  induction cs generalizing room with
  | nil => rw [fitting, List.take_nil]
  | cons c cs ih =>
    have hsize := utf8Size_of_ascii (h c List.mem_cons_self)
    have hrest := ih fun c hc => h c (List.mem_cons_of_mem _ hc)
    rw [fitting, hsize]
    cases room with
    | zero => rfl
    | succ room => rw [if_pos (Nat.le_add_left 1 room), Nat.add_sub_cancel, hrest, List.take_succ_cons]

theorem utf8ByteSize_ofList_of_ascii {cs : List Char} (h : ∀ c ∈ cs, c.toNat < 128) :
    (String.ofList cs).utf8ByteSize = cs.length := by
  induction cs with
  | nil => rfl
  | cons c cs ih =>
    have hsize := utf8Size_of_ascii (h c List.mem_cons_self)
    rw [utf8ByteSize_ofList_cons, hsize, ih fun c hc => h c (List.mem_cons_of_mem _ hc), List.length_cons,
      Nat.add_comm]

/-- Where each character takes one byte, a cut leaves no room for any later part: only the end is lost. -/
theorem toList_join_keptParts_of_ascii (h : ∀ part ∈ parts, ∀ c ∈ part.toList, c.toNat < 128)
    (room : Nat) : (String.join (keptParts room parts)).toList = (String.join parts).toList.take room := by
  induction parts generalizing room with
  | nil => rw [keptParts, String.join_nil, String.toList_empty, List.take_nil]
  | cons part parts ih =>
    have hpart := h part List.mem_cons_self
    have hsize : (String.ofList (part.toList.take room)).utf8ByteSize = min room part.toList.length := by
      rw [utf8ByteSize_ofList_of_ascii fun c hc => hpart c (List.mem_of_mem_take hc), List.length_take]
    rw [keptParts, fitting_of_ascii hpart, hsize, String.join_cons, String.join_cons, String.toList_append,
      String.toList_append, String.toList_ofList, ih fun p hp => h p (List.mem_cons_of_mem _ hp),
      List.take_append]
    congr 2
    omega

/-! ## Buffers -/

/-- What the log relies on of a buffer with `room` bytes. -/
structure TextBuffer.Lawful {μ : Type} (buffer : TextBuffer μ) (room : Nat) : Prop where
  text_empty : buffer.text buffer.empty = ""
  /-- A character with room is taken, and stands at the end of the text then. -/
  takes : ∀ m c, (buffer.text m).utf8ByteSize + c.utf8Size ≤ room →
    (buffer.push m c).1 = true ∧ buffer.text (buffer.push m c).2 = (buffer.text m).push c
  /-- A character without room is refused, and the text stays. -/
  refuses : ∀ m c, room < (buffer.text m).utf8ByteSize + c.utf8Size →
    (buffer.push m c).1 = false ∧ buffer.text (buffer.push m c).2 = buffer.text m

namespace TextBuffer

variable {μ : Type} {buffer : TextBuffer μ}

/-- Of one part the characters are appended that the room left holds, by induction on the characters. -/
theorem Lawful.text_writeChars (h : buffer.Lawful room) (m : μ) (cs : List Char) :
    buffer.text (buffer.writeChars m cs) =
      buffer.text m ++ String.ofList (fitting (room - (buffer.text m).utf8ByteSize) cs) := by
  induction cs generalizing m with
  | nil => rw [writeChars, fitting, String.ofList_nil, String.append_empty]
  | cons c cs ih =>
    have hpos := c.utf8Size_pos
    rw [writeChars, fitting]
    by_cases hroom : (buffer.text m).utf8ByteSize + c.utf8Size ≤ room
    · obtain ⟨htaken, htext⟩ := h.takes m c hroom
      generalize buffer.push m c = pushed at htaken htext ⊢
      obtain ⟨_, m'⟩ := pushed
      obtain rfl : _ = true := htaken
      have htext' : buffer.text m' = (buffer.text m).push c := htext
      rw [if_pos (by omega)]
      show buffer.text (buffer.writeChars m' cs) = _
      rw [ih, htext', String.utf8ByteSize_push, Nat.sub_add_eq, String.ofList_cons, ← String.append_assoc,
        String.push_eq_append]
    · obtain ⟨hrefused, htext⟩ := h.refuses m c (Nat.not_le.mp hroom)
      generalize buffer.push m c = pushed at hrefused htext ⊢
      obtain ⟨_, m'⟩ := pushed
      obtain rfl : _ = false := hrefused
      rw [if_neg (by omega), String.ofList_nil, String.append_empty]
      exact htext

theorem Lawful.text_foldl_append (h : buffer.Lawful room) (m : μ) (parts : List String) :
    buffer.text (parts.foldl buffer.append m) =
      buffer.text m ++ String.join (keptParts (room - (buffer.text m).utf8ByteSize) parts) := by
  induction parts generalizing m with
  | nil => rw [List.foldl_nil, keptParts, String.join_nil, String.append_empty]
  | cons part parts ih =>
    rw [List.foldl_cons, ih, keptParts, String.join_cons, append, h.text_writeChars,
      String.utf8ByteSize_append, Nat.sub_add_eq, String.append_assoc]

theorem Lawful.text_ofParts (h : buffer.Lawful room) (parts : List String) :
    buffer.text (buffer.ofParts parts) = String.join (keptParts room parts) := by
  rw [ofParts, h.text_foldl_append, h.text_empty, String.empty_append]
  rfl

end TextBuffer

/-- The engine's own messages. -/
theorem Message.lawful : Message.buffer.Lawful messageRoom where
  text_empty := rfl
  takes _ _ hroom := Message.push_of_le hroom
  refuses _ _ hroom := Message.push_of_lt hroom

/-! ## Recorded messages -/

/-- A record that passes enters the message that the rule keeps of its parts, whatever buffer keeps the text.
Parts that fit together are stored unchanged; of parts in ASCII the first characters are stored, however the
text was parted. -/
theorem recorded_message {μ : Type} {buffer : TextBuffer μ} (hbuffer : buffer.Lawful messageRoom) (l : Log μ)
    {level : Level} (hlevel : l.records level = true) (component : String) (parts : List String) :
    ∃ message : μ,
      (l.recordIn buffer level component parts).slots.get l.next =
        some ⟨level, l.nextSeq, component, message⟩ ∧
      (∃ kept, Cut messageRoom parts kept) ∧
      (∀ kept, Cut messageRoom parts kept → buffer.text message = String.join kept) ∧
      ((String.join parts).utf8ByteSize ≤ messageRoom → buffer.text message = String.join parts) ∧
      ((∀ part ∈ parts, ∀ c ∈ part.toList, c.toNat < 128) →
        (buffer.text message).toList = (String.join parts).toList.take messageRoom) := by
  have hcut := cut_keptParts messageRoom parts
  have htext := hbuffer.text_ofParts parts
  refine ⟨buffer.ofParts parts, ?_, ⟨_, hcut⟩, fun kept hkept => ?_, fun hfits => ?_, fun hascii => ?_⟩
  · rw [recordIn, if_pos hlevel]
    exact Vector.getElem_set_self _
  · rw [htext, hcut.unique hkept]
  · rw [htext, hcut.unique (cut_of_fits hfits)]
  · rw [htext, toList_join_keptParts_of_ascii hascii]

/-- A text of 62 bytes, and four parts for the two bytes that are left. -/
def crowded : List String :=
  ["the image of the second slot was refused, its header tells of ", "€5", ".", "éa", "!"]

theorem recorded_message_with_gaps :
    Message.buffer.Lawful messageRoom ∧ Log.empty.records .info = true ∧ ∃ message : Message,
      (Log.empty.record .info "ota" crowded).slots.get 0 = some ⟨.info, 0, "ota", message⟩ ∧
      message.text = "the image of the second slot was refused, its header tells of .!" := by
  have hlevel : Log.empty.records .info = true := rfl
  obtain ⟨message, hslot, -, htext, -⟩ := recorded_message Message.lawful .empty hlevel "ota" crowded
  refine ⟨Message.lawful, hlevel, message, hslot, ?_⟩
  have hkept : message.text = String.join (keptParts messageRoom crowded) := htext _ (cut_keptParts _ _)
  rw [hkept]
  decide +kernel

end BootSlots.Log
