import AccountSync.Generation
import AccountSync.Proofs.SortedMap
/-!
Reading undoes writing. A codec is lossless on the values that fit: put in front of any bytes, the
bytes of such a value give the value back and leave those others over. Lengths and counts fit
because the whole is shorter than a number of eight bytes can say, so all that remains to ask of a
message or a dump is that its sequence numbers have 64 bits (`Generation.read_put`,
`Standing.read_put`).
-/

namespace AccountSync

namespace Layout

/-- A signed number of 64 bits. -/
def Word (i : Int) : Prop := -9223372036854775808 ≤ i ∧ i < 9223372036854775808

instance (i : Int) : Decidable (Word i) := inferInstanceAs (Decidable (_ ∧ _))

namespace Codec

variable {α β : Type}

/-- Reading gives back every value that fits and whose bytes can be counted, and the bytes after
it. -/
def Lossless (c : Codec α) (fits : α → Prop) : Prop :=
  ∀ a rest, fits a → (c.put a).length < UInt64.size → c.get (c.put a ++ rest) = .ok (a, rest)

theorem front_append {short : Fault} {n : Nat} {head rest : Bytes} (h : head.length = n) :
    front short n (head ++ rest) = .ok (head, rest) := by
  simp [front, ← h]

/-! ### Numbers -/

theorem nat_lossless (width : Nat) : (nat width).Lossless fun n => n < Nat.pow 256 width := by
  intro n rest hn _
  have hlen : (Bytes.ofNat width n).length = width := Bytes.length_ofNat width n
  have hval : (Bytes.ofNat width n).toNat = n := by
    rw [Bytes.toNat_ofNat, Nat.mod_eq_of_lt hn]
  simp only [nat, front_append hlen, bind, Except.bind, hval]
  rfl

theorem get_ofNat {width n : Nat} (hn : n < Nat.pow 256 width) (hw : width < UInt64.size)
    (rest : Bytes) : (nat width).get (Bytes.ofNat width n ++ rest) = .ok (n, rest) :=
  nat_lossless width n rest hn (by simpa [nat] using hw)

/-- A length or a count is a number of eight bytes. -/
theorem get_length {n : Nat} (hn : n < UInt64.size) (rest : Bytes) :
    (nat 8).get (Bytes.ofNat 8 n ++ rest) = .ok (n, rest) :=
  get_ofNat hn (by decide) rest

theorem int_lossless : int.Lossless Word := by
  rintro i rest ⟨hlow, hhigh⟩ _
  have hsize : UInt64.size = 18446744073709551616 := rfl
  have hn : (i % UInt64.size).toNat < UInt64.size := by rw [hsize]; omega
  simp only [int, get_length hn, bind, Except.bind]
  congr 2
  rw [hsize]
  split <;> omega

/-! ### Texts and choices -/

theorem bytes_lossless : bytes.Lossless fun _ => True := by
  intro b rest _ hlen
  have hb : b.length < UInt64.size := by
    simp only [bytes, List.length_append] at hlen; omega
  simp only [bytes, List.append_assoc, get_length hb, bind, Except.bind]
  exact front_append rfl

theorem text_lossless : text.Lossless fun _ => True := by
  intro s rest _ hlen
  have hs : (Utf8.encode s).length < UInt64.size := by
    simp only [text, bytes, List.length_append] at hlen; omega
  simp only [text, bytes, List.append_assoc, get_length hs, bind, Except.bind, front_append rfl,
    Utf8.decode_encode]
  rfl

theorem oneOf_lossless [BEq α] [LawfulBEq α] {cases : List α}
    (hc : cases.length < Nat.pow 256 4) : (oneOf cases).Lossless fun a => a ∈ cases := by
  intro a rest ha _
  have hi : cases.idxOf a < cases.length := List.idxOf_lt_length_of_mem ha
  have hget : cases[cases.idxOf a]? = some a := by
    rw [List.getElem?_eq_getElem hi, List.getElem_idxOf hi]
  simp only [oneOf, get_ofNat (Nat.lt_trans hi hc) (by decide), bind, Except.bind, hget]
  rfl

theorem Lossless.option {c : Codec α} {fits : α → Prop} (hc : c.Lossless fits) :
    c.option.Lossless fun o => ∀ a ∈ o, fits a := by
  intro o rest ho hlen
  cases o with
  | none =>
    have h0 : (nat 1).get ([0] ++ rest) = .ok (0, rest) :=
      @get_ofNat 1 0 (by decide) (by decide) rest
    simp only [Codec.option, h0, bind, Except.bind]
    rfl
  | some a =>
    have h1 : (nat 1).get ([1] ++ (c.put a ++ rest)) = .ok (1, c.put a ++ rest) :=
      @get_ofNat 1 1 (by decide) (by decide) _
    have ha : c.get (c.put a ++ rest) = .ok (a, rest) :=
      hc a rest (ho a rfl) (by simp only [Codec.option, List.length_cons] at hlen; omega)
    have happ : c.option.put (some a) ++ rest = [1] ++ (c.put a ++ rest) := rfl
    rw [happ]
    simp only [Codec.option, h1, bind, Except.bind, ha]
    rfl

/-! ### Compounds -/

theorem Lossless.pair {c : Codec α} {d : Codec β} {f : α → Prop} {g : β → Prop}
    (hc : c.Lossless f) (hd : d.Lossless g) : (Codec.pair c d).Lossless fun p => f p.1 ∧ g p.2 := by
  rintro ⟨a, b⟩ rest ⟨ha, hb⟩ hlen
  simp only [Codec.pair, List.length_append] at hlen
  simp only [Codec.pair, List.append_assoc, hc a _ ha (by omega), hd b rest hb (by omega), bind,
    Except.bind]
  rfl

theorem Lossless.via {c : Codec α} {forth : α → β} {back : β → α} {f : α → Prop}
    (hc : c.Lossless f) (hback : ∀ b, forth (back b) = b) :
    (c.via forth back).Lossless fun b => f (back b) := by
  intro b rest hb hlen
  simp only [Codec.via] at hlen ⊢
  simp only [hc (back b) rest hb hlen, bind, Except.bind, hback]
  rfl

/-- No list of values is longer than the bytes of its members. -/
theorem length_le_flatMap {c : Codec α} (hne : ∀ a, c.put a ≠ []) :
    ∀ l : List α, l.length ≤ (l.flatMap c.put).length
  | [] => Nat.le_refl 0
  | a :: l => by
    have ha : 0 < (c.put a).length := List.length_pos_iff.2 (hne a)
    have ih := length_le_flatMap hne l
    simp only [List.flatMap_cons, List.length_append, List.length_cons]
    omega

theorem Lossless.getMany_put {c : Codec α} {f : α → Prop} (hc : c.Lossless f) (rest : Bytes) :
    ∀ l : List α, (∀ a ∈ l, f a) → (l.flatMap c.put).length < UInt64.size →
      getMany c l.length (l.flatMap c.put ++ rest) = .ok (l, rest)
  | [], _, _ => rfl
  | a :: l, hl, hlen => by
    simp only [List.flatMap_cons, List.length_append] at hlen
    have ha := hc a (l.flatMap c.put ++ rest) (hl a List.mem_cons_self) (by omega)
    have ih := hc.getMany_put rest l (fun b hb => hl b (List.mem_cons_of_mem _ hb)) (by omega)
    simp only [List.flatMap_cons, List.length_cons, List.append_assoc, Codec.getMany, ha, ih, bind,
      Except.bind]
    rfl

theorem Lossless.list {c : Codec α} {f : α → Prop} (hc : c.Lossless f) (hne : ∀ a, c.put a ≠ []) :
    (Codec.list c).Lossless fun l => ∀ a ∈ l, f a := by
  intro l rest hl hlen
  simp only [Codec.list, List.length_append] at hlen
  have hcount : l.length < UInt64.size := by
    have := length_le_flatMap hne l
    omega
  simp only [Codec.list, List.append_assoc, get_length hcount, bind, Except.bind]
  exact hc.getMany_put rest l hl (by omega)

/-! ### Messages and dumps -/

theorem length_put_text (s : String) : 8 ≤ (text.put s).length := by
  simp [text, bytes]

end Codec

end Layout

open Layout

theorem Entry.layout_lossless : Entry.layout.Lossless fun e => Word e.stamp := by
  have h := Codec.bytes_lossless.option.pair Codec.int_lossless
  intro e rest he hlen
  exact (h.via fun _ => rfl) e rest ⟨fun _ _ => trivial, he⟩ hlen

/-- The stamps of all entries have 64 bits. -/
def Entries.Words (m : Entries) : Prop := ∀ key e, m.find? key = some e → Word e.stamp

instance (m : Entries) : Decidable m.Words :=
  decidable_of_iff (∀ p ∈ m.toList, Word p.2.stamp)
    ⟨fun h key e he => h (key, e) (SortedMap.mem_toList.2 he),
      fun h p hp => h p.1 p.2 (SortedMap.mem_toList.1 hp)⟩

theorem Entries.layout_lossless : Entries.layout.Lossless Entries.Words := by
  have hentry := Codec.text_lossless.pair Entry.layout_lossless
  have hne : ∀ p : String × Entry, (Codec.pair Codec.text Entry.layout).put p ≠ [] := by
    intro p hp
    have := Codec.length_put_text p.1
    simp only [Codec.pair, List.append_eq_nil_iff] at hp
    rw [hp.1] at this
    simp at this
  intro m rest hm hlen
  refine ((hentry.list hne).via SortedMap.ofList_toList) m rest ?_ hlen
  rintro ⟨key, e⟩ hp
  exact ⟨trivial, hm key e (SortedMap.mem_toList.1 hp)⟩

/-- The numbers of a generation have 64 bits. -/
structure Generation.Words (g : Generation) : Prop where
  seq : Word g.seq
  entries : g.entries.Words

theorem Generation.layout_lossless : Generation.layout.Lossless Generation.Words := by
  have htopic : (Codec.oneOf Topic.all).Lossless fun t => t ∈ Topic.all :=
    Codec.oneOf_lossless (by decide)
  have h := htopic.pair (Codec.int_lossless.pair Entries.layout_lossless)
  intro g rest hg hlen
  exact (h.via fun _ => rfl) g rest ⟨Topic.mem_all g.topic, hg.seq, hg.entries⟩ hlen

/-- The numbers of a standing have 64 bits. -/
structure Standing.Words (s : Standing) : Prop where
  seq : Word s.seq
  entries : s.entries.Words

instance (s : Standing) : Decidable s.Words :=
  decidable_of_iff (Word s.seq ∧ s.entries.Words) ⟨fun h => ⟨h.1, h.2⟩, fun h => ⟨h.1, h.2⟩⟩

theorem Standing.layout_lossless : Standing.layout.Lossless Standing.Words := by
  have hphase : Standing.phaseLayout.Lossless fun p => p ∈ [Phase.settled, .edited, .sent] :=
    Codec.oneOf_lossless (by decide)
  have hne : ∀ t : String, Codec.text.put t ≠ [] := by
    intro t ht
    have := Codec.length_put_text t
    rw [ht] at this
    simp at this
  have hretired : Standing.retiredLayout.Lossless fun _ => True := fun s rest _ hlen =>
    ((Codec.text_lossless.list hne).via SortedSet.addAll_keys) s rest
      (fun _ _ => trivial) hlen
  have h := hphase.pair
    (Codec.int_lossless.pair (Entries.layout_lossless.pair (Codec.text_lossless.option.pair hretired)))
  intro s rest hs hlen
  refine (h.via fun _ => rfl) s rest ⟨?_, hs.seq, hs.entries, fun _ _ => trivial, trivial⟩ hlen
  show s.phase ∈ [Phase.settled, .edited, .sent]
  cases s.phase <;> decide

theorem Layout.Codec.Lossless.read_put {α : Type} {c : Codec α} {fits : α → Prop}
    (hc : c.Lossless fits) {a : α} (ha : fits a) (hlen : (c.put a).length < UInt64.size) :
    c.read (c.put a) = .ok a := by
  have h := hc a [] ha hlen
  rw [List.append_nil] at h
  rw [Codec.read, h]
  rfl

/-- A message says what was put in it. -/
theorem Generation.read_put {g : Generation} (hg : g.Words)
    (hlen : (Generation.layout.put g).length < UInt64.size) :
    Generation.layout.read (Generation.layout.put g) = .ok g :=
  Generation.layout_lossless.read_put hg hlen

/-- A dump says what was put in it. -/
theorem Standing.read_put {s : Standing} (hs : s.Words)
    (hlen : (Standing.layout.put s).length < UInt64.size) :
    Standing.layout.read (Standing.layout.put s) = .ok s :=
  Standing.layout_lossless.read_put hs hlen

end AccountSync
