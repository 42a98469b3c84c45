import AccountSync.Proofs.Replica.Saving
/-!
Which sequence numbers a copy has used up. A number is spent on some entries if the copy can publish
nothing else under it: it is past the number, or the swarm stores something under it, or it has sent
just these entries. What is spent stays spent whatever happens to the copy. A restart keeps it
spent, too, if the row is that of the copy; what a row may lack is told by `Standing.Near`.
-/

namespace AccountSync

namespace Standing

variable {s : Standing} {n : Int} {m : Entries}

/-- Nothing but these entries can be published under the number any more. -/
def Spent (s : Standing) (n : Int) (m : Entries) : Prop :=
  n < s.seq ∨ n = s.seq ∧ (s.phase = .settled ∨ s.phase = .sent ∧ s.entries = m)

theorem Spent.le (h : s.Spent n m) : n ≤ s.seq := h.elim le_of_lt fun h => h.1.le

/-- No number is spent within an open generation of edits but those below it. -/
theorem Spent.lt_of_edited (h : s.Spent n m) (hp : s.phase = .edited) : n < s.seq := by
  rcases h with hlt | ⟨-, hset | ⟨hsent, -⟩⟩
  · exact hlt
  · rw [hp] at hset
    cases hset
  · rw [hp] at hsent
    cases hsent

theorem Spent.congr {s' : Standing} (h : s.Spent n m) (hphase : s'.phase = s.phase)
    (hseq : s'.seq = s.seq) (hentries : s'.entries = s.entries) : s'.Spent n m := by
  rwa [Spent, hphase, hseq, hentries]

/-- A restart from a saved standing keeps what is spent in it. -/
theorem Spent.resumed (h : s.Spent n m) : s.resumed.Spent n m := by
  by_cases hp : s.phase = .edited
  · have hseq : s.resumed.seq = s.seq + 1 := by rw [Standing.resumed, if_pos hp]
    have hlt := h.lt_of_edited hp
    exact .inl (by omega)
  · rwa [resumed_eq_iff.2 hp]

/-- What a saved standing has of a copy: phase, number and entries, or, if it was saved within a
generation of edits, that generation, perhaps in the next number. -/
def Near (saved s : Standing) : Prop :=
  (s.phase = saved.phase ∧ s.seq = saved.seq ∧ s.entries = saved.entries) ∨
    saved.phase = .edited ∧ s.phase ≠ .settled ∧ (s.seq = saved.seq ∨ s.seq = saved.seq + 1)

theorem near_self (s : Standing) : s.Near s := .inl ⟨rfl, rfl, rfl⟩

theorem near_resumed (s : Standing) : s.Near s.resumed := by
  by_cases hp : s.phase = .edited
  · have hphase : s.resumed.phase = .edited := hp
    refine .inr ⟨hp, ?_, .inr (by rw [resumed, if_pos hp])⟩
    rw [hphase]
    decide
  · rw [resumed_eq_iff.2 hp]
    exact near_self s

/-- The number under which a restart would let a copy publish once more, if the one of before has
done so. -/
def Exposes (saved : Standing) (n : Int) : Prop := saved.phase = .edited ∧ n = saved.seq + 1

end Standing

namespace Replica

variable {c : Cipher} {r r' r'' : Replica} {n : Int} {m : Entries}

/-- What is spent stays spent. -/
def Advances (r r' : Replica) : Prop := ∀ n m, r.Spent n m → r'.Spent n m

theorem Advances.refl (r : Replica) : r.Advances r := fun _ _ => id

theorem Advances.trans (h : r.Advances r') (h' : r'.Advances r'') : r.Advances r'' :=
  fun n m hs => h' n m (h n m hs)

theorem advances_of_lt (h : r.seq < r'.seq) : r.Advances r' :=
  fun _ _ hs => .inl (hs.le.trans_lt h)

theorem advances_of_settled (h : r.seq ≤ r'.seq) (hp : r'.phase = .settled) : r.Advances r' := by
  intro n m hs
  rcases (hs.le.trans h).lt_or_eq with hlt | heq
  · exact .inl hlt
  · exact .inr ⟨heq, .inl hp⟩

theorem advances_of_edited (h : r'.seq = r.seq) (hp : r.phase = .edited) : r.Advances r' :=
  fun _ _ hs => .inl (h ▸ hs.lt_of_edited hp)

theorem advances_of_eq (hphase : r'.phase = r.phase) (hseq : r'.seq = r.seq)
    (hentries : r'.entries = r.entries) : r.Advances r' :=
  fun _ _ hs => hs.congr hphase hseq hentries

theorem advances_change (r : Replica) (what : Change) : r.Advances (r.change what).2 := by
  by_cases heff : r.Effective what
  · rw [change_of_effective heff]
    have hw := write_wrote r what.key what.value
    generalize r.write what.key what.value = r' at hw ⊢
    cases hw with
    | within hp => exact advances_of_edited rfl hp
    | opening _ _ _ _ hseq =>
      have hlt : r.seq < r'.seq := by omega
      exact advances_of_lt hlt
  · rw [change_of_not_effective heff]
    exact .refl r

theorem advances_take (r : Replica) (hash : String) (g : Generation) :
    r.Advances (r.take hash g).2 := by
  have h := take_took r hash g
  generalize r.take hash g = x at h ⊢
  cases h with
  | known => exact .refl r
  | stale => exact advances_of_eq rfl rfl rfl
  | copied => exact advances_of_settled (takeCopy_seq r hash).ge (takeCopy_phase r hash)
  | adopted hseq => exact advances_of_settled hseq rfl
  | combined =>
    have hlt : r.seq < max r.seq g.seq + 1 := by omega
    exact advances_of_lt hlt

theorem advances_merge (c : Cipher) (r : Replica) (batch : List (String × Bytes)) :
    r.Advances (r.merge c batch).2 := by
  refine merge_induction (P := r.Advances) (fun hash payload _ r' hr' => ?_) r (.refl r)
  rcases takePayload_cases c r' hash payload with ⟨-, h⟩ | ⟨g, -, h⟩ <;> rw [h]
  · exact hr'
  · exact hr'.trans (advances_take r' hash g)

theorem advances_push (c : Cipher) (nonce : Bytes) (r : Replica) :
    r.Advances (r.push c nonce).2 := by
  have h := push_pushed c nonce r
  generalize r.push c nonce = x at h ⊢
  cases h with
  | refused => exact .refl r
  | made r' _ _ hphase _ _ hseq hentries =>
    by_cases hp : r.phase = .edited
    · exact advances_of_edited hseq hp
    · rw [if_neg hp] at hphase
      exact advances_of_eq hphase hseq hentries

theorem advances_confirm (r : Replica) (seq : Int) (hash : String) :
    r.Advances (r.confirm seq hash).2 := by
  have h := confirm_confirmed r seq hash
  generalize r.confirm seq hash = x at h ⊢
  cases h with
  | applied _ _ _ hphase hseq => exact advances_of_settled hseq.ge hphase
  | ignored => exact .refl r

/-- What a push sends is spent. -/
theorem spent_of_push {nonce : Bytes} {push : Push} (hneeds : r.needsPush = true)
    (hpush : (r.push c nonce).1 = .ok push) : (r.push c nonce).2.Spent r.seq r.entries := by
  have h := push_pushed c nonce r
  generalize r.push c nonce = x at h hpush ⊢
  cases h with
  | refused => cases hpush
  | made r' _ _ hphase _ _ hseq hentries =>
    refine .inr ⟨hseq.symm, .inr ⟨?_, hentries⟩⟩
    rw [hphase]
    cases hp : r.phase with
    | settled => simp [needsPush, hp] at hneeds
    | edited | sent => rfl

/-- A copy with something to publish under a number that is spent says what was said under it. -/
theorem entries_of_spent (h : r.Spent r.seq m) (hneeds : r.needsPush = true) : r.entries = m := by
  rcases h with hlt | ⟨-, hset | ⟨-, hentries⟩⟩
  · exact absurd hlt (lt_irrefl _)
  · simp [needsPush, hset] at hneeds
  · exact hentries

/-! ### Steps that are not saved -/

/-- A step that may stay unsaved: it leaves phase, number and entries, or it stays within the number
of a generation of edits. -/
def Drifts (r r' : Replica) : Prop :=
  (r'.phase = r.phase ∧ r'.seq = r.seq ∧ r'.entries = r.entries) ∨
    r.phase = .edited ∧ r'.phase ≠ .settled ∧ r'.seq = r.seq

theorem Drifts.refl (r : Replica) : r.Drifts r := .inl ⟨rfl, rfl, rfl⟩

theorem drifts_push (c : Cipher) (nonce : Bytes) (r : Replica) : r.Drifts (r.push c nonce).2 := by
  have h := push_pushed c nonce r
  generalize r.push c nonce = x at h ⊢
  cases h with
  | refused => exact .refl r
  | made r' _ _ hphase _ _ hseq hentries =>
    by_cases hp : r.phase = .edited
    · rw [if_pos hp] at hphase
      refine .inr ⟨hp, ?_, hseq⟩
      rw [hphase]
      decide
    · rw [if_neg hp] at hphase
      exact .inl ⟨hphase, hseq, hentries⟩

/-- A saved standing stays near a copy that takes a step without being saved. -/
theorem near_of_drifts {saved : Standing} (h : saved.Near r.toStanding) (hd : r.Drifts r') :
    saved.Near r'.toStanding := by
  rcases hd with ⟨hphase, hseq, hentries⟩ | ⟨hp, hset, hseq⟩
  · rw [Standing.Near, hphase, hseq, hentries]
    exact h
  · rcases h with ⟨hphase, hsaved, -⟩ | ⟨hedited, -, hsaved⟩
    · exact .inr ⟨hphase.symm.trans hp, hset, .inl (hseq.trans hsaved)⟩
    · exact .inr ⟨hedited, hset, by rwa [hseq]⟩

/-- What a copy publishes is spent in what a restart makes of its row, or the row exposes the
number. -/
theorem spent_or_exposes {saved : Standing} (h : saved.Near r.toStanding)
    (hneeds : r.needsPush = true) :
    saved.resumed.Spent r.seq r.entries ∨ saved.Exposes r.seq := by
  have hedited : saved.phase = .edited → r.seq = saved.seq →
      saved.resumed.Spent r.seq r.entries := by
    intro hp hseq
    have hresumed : saved.resumed.seq = saved.seq + 1 := by rw [Standing.resumed, if_pos hp]
    exact .inl (by omega)
  -- A restart of a row saved as edited starts above the row's number, but no higher than the number
  -- that an earlier restart of the same row has published under.
  rcases h with ⟨hphase, hseq, hentries⟩ | ⟨hp, -, hseq | hseq⟩
  · cases hp : saved.phase with
    | settled => simp [needsPush, hphase, hp] at hneeds
    | edited => exact .inl (hedited hp hseq)
    | sent =>
      have hresumed : saved.resumed = saved := Standing.resumed_eq_iff.2 (by rw [hp]; decide)
      rw [hresumed]
      exact .inl (.inr ⟨hseq, .inr ⟨hp, hentries.symm⟩⟩)
  · exact .inl (hedited hp hseq)
  · exact .inr ⟨hp, hseq⟩

end Replica

end AccountSync
