import AccountSync.Proofs.Swarm.Batches
/-!
Two copies that take turns: one publishes what it holds, and the other merges it. Wherever they start,
the first message makes them agree or leaves the sender behind with a generation below the other's
(`agree_or_behind`). The answer to it is adopted, or joined into a generation that holds everything
(`Behind.turn`), and that one is adopted in the third turn. From then on every message is a further
copy of what both hold (`Agree.turn`).
-/

namespace AccountSync

theorem Entries.Words.join {m n : Entries} (hm : m.Words) (hn : n.Words) : (m.join n).Words :=
  fun key e he => (find?_join_cases he).elim (hm key e) (hn key e)

namespace Replica

variable {c : Cipher} {a b : Replica}

/-! ### Turns -/

/-- What a turn is given: the nonce of the message, and the hash that the swarm stores it under. -/
structure Letter where
  nonce : Bytes
  hash : String

/-- The first copy is pushed, stored and confirmed, and the second merges the message. Then it is the
other's turn. -/
def turn (c : Cipher) (pair : Replica × Replica) (letter : Letter) : Replica × Replica :=
  match pair.1.push c letter.nonce with
  | (.ok push, a) =>
    ((pair.2.merge c [(letter.hash, push.payload)]).2, (a.confirm push.seq letter.hash).2)
  | (.error _, a) => (pair.2, a)

/-- A copy can be pushed: its message is not too long, and its number has 64 bits. -/
structure Sends (c : Cipher) (nonce : Bytes) (a : Replica) : Prop where
  short : (a.payload c nonce).length ≤ a.limit
  seq : Layout.Word a.seq

/-- Every copy whose turn it is can be pushed. -/
def AllSend (c : Cipher) : List Letter → Replica × Replica → Prop
  | [], _ => True
  | letter :: letters, pair =>
    pair.1.Sends c letter.nonce ∧ AllSend c letters (turn c pair letter)

/-- Two copies of one topic and secret; their stamps have 64 bits. -/
structure Twins (a b : Replica) : Prop where
  topic : b.topic = a.topic
  secret : b.secret = a.secret
  words : a.entries.Words ∧ b.entries.Words
  limits : a.limit < UInt64.size ∧ b.limit < UInt64.size

/-- A copy after its message was stored under a hash. -/
structure Published (a : Replica) (hash : String) (a' : Replica) : Prop where
  phase : a'.phase = .settled
  seq : a'.seq = a.seq
  entries : a'.entries = a.entries
  fixed : a'.fixed = a.fixed
  current : a'.current = some hash ∨ a'.current = a.current

theorem published {nonce : Bytes} {push : Push} (h : (a.push c nonce).1 = .ok push)
    (hash : String) :
    Published a hash ((a.push c nonce).2.confirm push.seq hash).2 := by
  have hp := push_pushed c nonce a
  generalize a.push c nonce = x at h hp ⊢
  cases hp with
  | refused => cases h
  | made a' _ _ hphase _ _ hseq hentries hcurrent _ _ hfixed =>
    obtain rfl := Except.ok.inj h
    have hc := confirm_confirmed a' a.seq hash
    dsimp only
    generalize a'.confirm a.seq hash = y at hc ⊢
    cases hc with
    | applied _ _ _ hsettled hseq' hentries' hcurrent' _ hfixed' =>
      exact ⟨hsettled, hseq'.trans hseq, hentries'.trans hentries, hfixed'.trans hfixed,
        .inl hcurrent'⟩
    | ignored hother =>
      -- Only a settled copy is not waiting for the answer to its push.
      have hsent : a'.phase ≠ .sent := fun hs => hother ⟨hs, hseq.symm⟩
      refine ⟨?_, hseq, hentries, hfixed, .inr hcurrent⟩
      cases hp : a.phase <;> simp_all

/-- In a turn the sender's copy is published, and the other takes its generation. -/
theorem turn_eq (hc : c.Faithful) (h : Twins a b) (letter : Letter)
    (hnonce : letter.nonce.length = Cipher.nonceLength) (hsends : a.Sends c letter.nonce) :
    ∃ a', Published a letter.hash a' ∧
      turn c (a, b) letter = ((b.take letter.hash a.generation).2, a') := by
  obtain ⟨push, hpush⟩ : ∃ push, (a.push c letter.nonce).1 = .ok push :=
    ⟨_, by simp only [Replica.push, if_neg (Nat.not_lt.2 hsends.short)]; rfl⟩
  have hlen : (Generation.layout.put a.generation).length < UInt64.size := by
    have hlen := hsends.short
    rw [length_payload hc a hnonce] at hlen
    have hlimit := h.limits.1
    omega
  have hread := read?_push hc ⟨hsends.seq, h.words.1⟩ hlen hnonce hpush h.topic h.secret
  refine ⟨_, published hpush letter.hash, ?_⟩
  simp only [turn]
  generalize a.push c letter.nonce = x at hpush
  obtain ⟨x, a'⟩ := x
  obtain rfl : x = .ok push := hpush
  simp only [merge, takePayload, hread]

theorem Twins.turn {a' : Replica} (h : Twins a b) {hash : String} (ha : Published a hash a') :
    Twins (b.take hash a.generation).2 a' := by
  obtain ⟨htopic, hrest⟩ := Prod.ext_iff.1 ha.fixed
  obtain ⟨hsecret, hlimit⟩ := Prod.ext_iff.1 hrest
  obtain ⟨htopic', hrest'⟩ := Prod.ext_iff.1 (take_fixed b hash a.generation)
  obtain ⟨hsecret', hlimit'⟩ := Prod.ext_iff.1 hrest'
  refine ⟨?_, ?_, ⟨?_, ha.entries ▸ h.words.1⟩, ?_, ?_⟩
  · exact htopic.trans (h.topic.symm.trans htopic'.symm)
  · exact hsecret.trans (h.secret.symm.trans hsecret'.symm)
  · have ht := take_took b hash a.generation
    generalize b.take hash a.generation = x at ht ⊢
    cases ht with
    | known | stale => exact h.words.2
    | copied => rw [takeCopy_entries]; exact h.words.2
    | adopted => exact h.words.1
    | combined => exact h.words.2.join h.words.1
  · exact hlimit'.trans_lt h.limits.2
  · exact hlimit.trans_lt h.limits.1

/-! ### How far two copies are apart -/

/-- Both copies are settled and hold the same generation, which has these entries. -/
structure Agree (all : Entries) (a b : Replica) : Prop where
  settled : a.phase = .settled ∧ b.phase = .settled
  seq : a.seq = b.seq
  entries : a.entries = all ∧ b.entries = all

/-- The second copy is settled, in an earlier generation than the first; together they have these
entries. -/
structure Behind (all : Entries) (a b : Replica) : Prop where
  settled : b.phase = .settled
  seq : b.seq < a.seq
  entries : a.entries.join b.entries = all

/-- After one turn the copies agree, or the one that was pushed is behind. -/
theorem agree_or_behind {a' : Replica} {hash : String} (ha : Published a hash a')
    (hcur : b.current ≠ some hash) :
    Agree (a.entries.join b.entries) (b.take hash a.generation).2 a' ∨
      Behind (a.entries.join b.entries) (b.take hash a.generation).2 a' := by
  have ht := take_took b hash a.generation
  generalize b.take hash a.generation = x at ht ⊢
  cases ht with
  | known h => exact absurd h hcur
  | stale hlt =>
    refine .inr ⟨ha.phase, ?_, ?_⟩
    · rw [ha.seq]
      exact hlt
    · rw [ha.entries]
      exact Entries.join_comm _ _
  | copied hseq hentries =>
    have hsame : a.entries.join b.entries = b.entries := Entries.join_eq_right_iff.2 hentries.le
    refine .inl ⟨⟨takeCopy_phase b hash, ha.phase⟩, ?_, ?_, ?_⟩
    · rw [takeCopy_seq, ha.seq]
      exact hseq.symm
    · rw [takeCopy_entries, hsame]
    · rw [ha.entries, hsame]
      exact hentries
  | adopted hseq hle =>
    have hsame : a.entries.join b.entries = a.entries := sup_eq_left.2 hle
    exact .inl ⟨⟨rfl, ha.phase⟩, ha.seq.symm, hsame.symm, ha.entries.trans hsame.symm⟩
  | combined hseq =>
    refine .inr ⟨ha.phase, ?_, ?_⟩
    · rw [ha.seq, combine_seq]
      exact lt_of_le_of_lt (le_max_right b.seq a.generation.seq) (Int.lt_add_one_of_le le_rfl)
    · rw [combine_entries, ha.entries, Entries.join_comm b.entries]
      show (a.entries.join b.entries).join a.entries = a.entries.join b.entries
      rw [Entries.join_comm, ← Entries.join_assoc, Entries.join_self]

/-- A copy that is behind adopts the other's generation, or lacks nothing after it was joined with
it. -/
theorem Behind.turn {all : Entries} {a' : Replica} {hash : String} (h : Behind all a b)
    (ha : Published a hash a') (hcur : b.current ≠ some hash) :
    Agree all (b.take hash a.generation).2 a' ∨
      a.entries ≠ all ∧ (b.take hash a.generation).2.entries = all ∧
        Behind all (b.take hash a.generation).2 a' := by
  have hseq : a.generation.seq = a.seq := rfl
  have hlt := h.seq
  have ht := take_took b hash a.generation
  generalize b.take hash a.generation = x at ht ⊢
  cases ht with
  | known hnow => exact absurd hnow hcur
  | stale hstale => omega
  | copied hsame => omega
  | adopted _ hle =>
    have hall : a.entries = all := (sup_eq_left.2 hle).symm.trans h.entries
    exact .inl ⟨⟨rfl, ha.phase⟩, ha.seq.symm, hall, ha.entries.trans hall⟩
  | combined _ hlacks =>
    have hall : b.entries.join a.entries = all := (Entries.join_comm _ _).trans h.entries
    refine .inr ⟨fun heq => hlacks ?_, hall, ha.phase, ?_, ?_⟩
    · show b.entries ≤ a.entries
      rw [heq, ← h.entries]
      exact le_sup_right
    · rw [ha.seq, combine_seq]
      omega
    · rw [combine_entries, ha.entries]
      show (b.entries.join a.entries).join a.entries = all
      rw [Entries.join_assoc, Entries.join_self, hall]

/-- Copies that agree take each other's message for a further copy of their own. -/
theorem Agree.turn {all : Entries} {a' : Replica} {hash : String} (h : Agree all a b)
    (ha : Published a hash a') (hcur : b.current ≠ some hash) :
    Agree all (b.take hash a.generation).2 a' := by
  have hentries : a.generation.entries = b.entries := h.entries.1.trans h.entries.2.symm
  rw [take_of_same hcur h.seq hentries]
  refine ⟨⟨takeCopy_phase b hash, ha.phase⟩, ?_, ?_, ha.entries.trans h.entries.1⟩
  · rw [takeCopy_seq, ha.seq, h.seq]
  · rw [takeCopy_entries, h.entries.2]

/-! ### Any number of turns -/

/-- Two copies can take a turn for each letter: the hashes are all different and none is the current
one of a copy. -/
structure Conversation (c : Cipher) (letters : List Letter) (a b : Replica) : Prop where
  twins : Twins a b
  nonces : ∀ letter ∈ letters, letter.nonce.length = Cipher.nonceLength
  distinct : (letters.map Letter.hash).Nodup
  fresh : ∀ letter ∈ letters, a.current ≠ some letter.hash ∧ b.current ≠ some letter.hash
  sends : AllSend c letters (a, b)

theorem Conversation.turn {letter : Letter} {letters : List Letter} (hc : c.Faithful)
    (h : Conversation c (letter :: letters) a b) :
    ∃ a', Published a letter.hash a' ∧ b.current ≠ some letter.hash ∧
      Replica.turn c (a, b) letter = ((b.take letter.hash a.generation).2, a') ∧
      Conversation c letters (b.take letter.hash a.generation).2 a' := by
  obtain ⟨hnonce, hnonces⟩ := List.forall_mem_cons.1 h.nonces
  obtain ⟨⟨-, hcur⟩, hfresh⟩ := List.forall_mem_cons.1 h.fresh
  obtain ⟨hother, hdistinct⟩ := List.nodup_cons.1 h.distinct
  obtain ⟨hsends, hall⟩ := h.sends
  obtain ⟨a', ha, hturn⟩ := turn_eq hc h.twins letter hnonce hsends
  rw [hturn] at hall
  refine ⟨a', ha, hcur, hturn, h.twins.turn ha, hnonces, hdistinct, fun next hnext => ?_, hall⟩
  have hne : letter.hash ≠ next.hash := fun heq => hother (heq ▸ List.mem_map_of_mem hnext)
  constructor
  · intro hnow
    rcases take_current hnow with hold | heq
    · exact (hfresh next hnext).2 hold
    · exact hne heq.symm
  · intro hnow
    rcases ha.current with hnew | hold
    · exact hne (Option.some.inj (hnew.symm.trans hnow))
    · exact (hfresh next hnext).1 (hold ▸ hnow)

theorem Agree.run (hc : c.Faithful) {all : Entries} : ∀ {letters : List Letter} {a b : Replica},
    Agree all a b → Conversation c letters a b →
      Agree all (letters.foldl (Replica.turn c) (a, b)).1 (letters.foldl (Replica.turn c) (a, b)).2
  | [], _, _, h, _ => h
  | letter :: letters, a, b, h, hletters => by
    obtain ⟨a', ha, hcur, hturn, hrest⟩ := hletters.turn hc
    rw [List.foldl_cons, hturn]
    exact (h.turn ha hcur).run hc hrest

/-- Two copies in any states take turns, three at least: two rounds are four turns. Then both are
settled and in one generation, which has exactly the entries that the two had together. -/
theorem agree_after_three_turns (hc : c.Faithful) {letters : List Letter}
    (h : Conversation c letters a b) (hlen : 3 ≤ letters.length) :
    Agree (a.entries.join b.entries) (letters.foldl (turn c) (a, b)).1
      (letters.foldl (turn c) (a, b)).2 := by
  obtain ⟨first, second, third, letters, rfl⟩ :
      ∃ first second third rest, letters = first :: second :: third :: rest := by
    match letters, hlen with
    | first :: second :: third :: rest, _ => exact ⟨first, second, third, rest, rfl⟩
  obtain ⟨a₁, ha, hcur, hturn, h⟩ := h.turn hc
  rw [List.foldl_cons, hturn]
  rcases agree_or_behind ha hcur with hagree | hbehind
  · exact hagree.run hc h
  obtain ⟨b₂, hb, hcur, hturn, h⟩ := h.turn hc
  rw [List.foldl_cons, hturn]
  rcases hbehind.turn hb hcur with hagree | ⟨-, hall, hbehind⟩
  · exact hagree.run hc h
  obtain ⟨a₃, ha, hcur, hturn, h⟩ := h.turn hc
  rw [List.foldl_cons, hturn]
  rcases hbehind.turn ha hcur with hagree | ⟨hother, -, -⟩
  · exact hagree.run hc h
  · exact absurd hall hother

/-- Two devices that each made an edit, and four letters. -/
theorem conversation_two_edits (c : Cipher) (hc : c.Faithful) :
    ∃ (a b : Replica) (letters : List Letter), letters.length = 4 ∧ a.get "a" = some [1] ∧
      b.get "b" = some [2] ∧ Conversation c letters a b := by
  let nonce : Bytes := List.replicate Cipher.nonceLength 0
  have hnonce : nonce.length = Cipher.nonceLength := List.length_replicate
  let fresh : Replica := .fresh .contacts default
  have hsends : ∀ {r : Replica} {g : Generation}, r.fixed = fresh.fixed → r.seq = g.seq →
      r.entries = g.entries → g.topic = .contacts → Layout.Word g.seq →
      (Generation.layout.put g).length + Cipher.overhead ≤ fresh.limit → r.Sends c nonce := by
    intro r g hfixed hseq hentries htopic hword hlen
    have hgen : r.generation = g :=
      (eq_generation_iff.2 ⟨htopic.trans (topic_of_fixed hfixed).symm, hseq.symm,
        hentries.symm⟩).symm
    have hlimit : r.limit = fresh.limit := (Prod.ext_iff.1 (Prod.ext_iff.1 hfixed).2).2
    refine ⟨?_, hseq ▸ hword⟩
    rw [length_payload hc r hnonce, hgen, hlimit]
    exact hlen
  let a : Replica := (fresh.change ⟨"a", some [1]⟩).2
  let b : Replica := (fresh.change ⟨"b", some [2]⟩).2
  let b₁ : Replica := (b.take "first" a.generation).2
  have hb₁ : b₁.fixed = fresh.fixed := by decide
  have htopic : b₁.generation.topic = .contacts := topic_of_fixed hb₁
  have htwins : Twins a b := ⟨rfl, rfl, by decide, by decide⟩
  have hsend : a.Sends c nonce :=
    hsends (g := a.generation) rfl rfl rfl rfl (by decide) (by decide)
  obtain ⟨a₁, ha, hturn⟩ := turn_eq hc htwins ⟨nonce, "first"⟩ hnonce hsend
  have htwins : Twins b₁ a₁ := htwins.turn ha
  have hbehind : Behind b₁.entries b₁ a₁ := by
    refine ⟨ha.phase, ?_, ?_⟩
    · rw [ha.seq]
      decide
    · rw [ha.entries]
      decide
  have hsend₁ : b₁.Sends c nonce :=
    hsends (g := b₁.generation) hb₁ rfl rfl htopic (by decide) (by decide)
  obtain ⟨b₂, hb, hturn₁⟩ := turn_eq hc htwins ⟨nonce, "second"⟩ hnonce hsend₁
  have hcur : a₁.current ≠ some "second" := by
    rcases ha.current with hcur | hcur <;> rw [hcur] <;> decide
  let a₂ : Replica := (a₁.take "second" b₁.generation).2
  have htwins : Twins a₂ b₂ := htwins.turn hb
  -- From here on both copies hold the second generation.
  have hagree : Agree b₁.entries a₂ b₂ := (hbehind.turn hb hcur).resolve_right fun h => h.1 rfl
  have hb₂ : b₂.fixed = fresh.fixed := hb.fixed.trans hb₁
  have ha₂ : a₂.fixed = fresh.fixed := (take_fixed a₁ _ _).trans ha.fixed
  have hseq₂ : a₂.seq = b₁.seq := hagree.seq.trans hb.seq
  have hsend₂ : a₂.Sends c nonce :=
    hsends (g := b₁.generation) ha₂ hseq₂ hagree.entries.1 htopic (by decide) (by decide)
  obtain ⟨a₃, ha₃, hturn₂⟩ := turn_eq hc htwins ⟨nonce, "third"⟩ hnonce hsend₂
  have hcur : b₂.current ≠ some "third" := by
    rcases hb.current with hcur | hcur <;> rw [hcur] <;> decide
  have hagree : Agree b₁.entries (b₂.take "third" a₂.generation).2 a₃ := hagree.turn ha₃ hcur
  have hsend₃ : (b₂.take "third" a₂.generation).2.Sends c nonce :=
    hsends (g := b₁.generation) ((take_fixed b₂ _ _).trans hb₂)
      (hagree.seq.trans (ha₃.seq.trans hseq₂)) hagree.entries.1 htopic (by decide) (by decide)
  refine ⟨a, b, [⟨nonce, "first"⟩, ⟨nonce, "second"⟩, ⟨nonce, "third"⟩, ⟨nonce, "fourth"⟩], rfl,
    by decide, by decide, ⟨rfl, rfl, by decide, by decide⟩, ?_, by decide, ?_, hsend, ?_⟩
  · simp [hnonce]
  · simp [a, b, fresh]
    decide
  · rw [hturn]
    refine ⟨hsend₁, ?_⟩
    rw [hturn₁]
    refine ⟨hsend₂, ?_⟩
    rw [hturn₂]
    exact ⟨hsend₃, trivial⟩

/-- After two rounds both devices have both edits. -/
theorem agree_after_two_rounds :
    ∃ (a b : Replica) (letters : List Letter), letters.length = 4 ∧ a.get "a" = some [1] ∧
      b.get "b" = some [2] ∧ Conversation .xchacha20Poly1305 letters a b ∧
      (letters.foldl (turn .xchacha20Poly1305) (a, b)).1.needsPush = false ∧
      (letters.foldl (turn .xchacha20Poly1305) (a, b)).2.needsPush = false ∧
      (letters.foldl (turn .xchacha20Poly1305) (a, b)).1.entries = a.entries.join b.entries ∧
      (letters.foldl (turn .xchacha20Poly1305) (a, b)).2.entries = a.entries.join b.entries := by
  obtain ⟨a, b, letters, hlen, ha, hb, h⟩ :=
    conversation_two_edits .xchacha20Poly1305 Cipher.faithful_xchacha20Poly1305
  have hagree := agree_after_three_turns Cipher.faithful_xchacha20Poly1305 h (by omega)
  refine ⟨a, b, letters, hlen, ha, hb, h, ?_, ?_, hagree.entries.1, hagree.entries.2⟩
  · simp [needsPush, hagree.settled.1]
  · simp [needsPush, hagree.settled.2]

end Replica

end AccountSync
