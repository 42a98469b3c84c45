import AccountSync.Proofs.Replica.Retired
import AccountSync.Proofs.Swarm.Batches
/-!
What becomes of every message of a delivery, in whatever order it comes. In the end the copy holds the
message, or has refused it as older than its own generation (`Backed.takeAll`). Nothing is lost when
the messages with the highest number contain all others and do not differ in more than two ways: the
first of the two is adopted, the other is joined with it, and nothing that is refused then is missed
(`Delivered.entries_of_tops`).
-/

namespace AccountSync

namespace Replica

variable {ι : Type} {P : Post ι → Prop} {r r' : Replica} {p q : Post ι}

/-! ### Held or refused -/

/-- If the current hash is that of one of these messages, the copy holds the message. -/
def Backed (P : Post ι → Prop) (r : Replica) : Prop :=
  ∀ p, P p → r.current = some p.hash → r.Holds p.content

/-- The hash of a message is retired, and the copy is in a later generation. -/
structure Refused (r : Replica) (p : Post ι) : Prop where
  retired : p.hash ∈ r.retired.keys
  seq : p.content.seq < r.seq

/-- A hash names no more than one of these messages. -/
def OnePerHash (P : Post ι → Prop) : Prop := ∀ p q, P p → P q → p.hash = q.hash → p = q

theorem Holds.congr {g : Generation} (h : r.Holds g) (hr : r'.toStanding = r.toStanding) :
    r'.Holds g := by
  have hseq : r'.seq = r.seq := congrArg Standing.seq hr
  have hentries : r'.entries = r.entries := congrArg Standing.entries hr
  have hphase : r'.phase = r.phase := congrArg Standing.phase hr
  exact ⟨hseq ▸ h.seq, hentries ▸ h.entries, fun he => hseq ▸ h.edited (hphase ▸ he)⟩

theorem Backed.congr (h : Backed P r) (hr : r'.toStanding = r.toStanding) : Backed P r' :=
  fun p hp hcur => (h p hp ((congrArg Standing.current hr).symm.trans hcur)).congr hr

theorem Refused.congr (h : r.Refused p) (hr : r'.toStanding = r.toStanding) : r'.Refused p := by
  have hseq : r'.seq = r.seq := congrArg Standing.seq hr
  have hretired : r'.retired = r.retired := congrArg Standing.retired hr
  exact ⟨hretired ▸ h.retired, hseq ▸ h.seq⟩

/-- A message that a copy takes is held then, or was older than the copy and changes no more than
what is retired. -/
theorem take_holds_or_stale {hash : String} {g : Generation}
    (hcur : r.current = some hash → r.Holds g) :
    (r.take hash g).2.Holds g ∨ g.seq < r.seq ∧
      (r.take hash g).2 = { r with retired := r.retired.add hash, unsaved := true } := by
  have ht := take_took r hash g
  generalize r.take hash g = x at ht ⊢
  cases ht with
  | known h => exact .inl (hcur h)
  | stale hlt => exact .inr ⟨hlt, rfl⟩
  | copied hseq hentries =>
    refine .inl ⟨?_, ?_, fun he => ?_⟩
    · rw [takeCopy_seq, hseq]
    · rw [takeCopy_entries, hentries]
    · rw [takeCopy_phase] at he
      cases he
  | adopted => exact .inl ⟨le_rfl, le_rfl, fun he => by rw [adopt_phase] at he; cases he⟩
  | combined =>
    have hlt : g.seq < max r.seq g.seq + 1 := by omega
    exact .inl ⟨hlt.le, le_sup_right, fun _ => hlt⟩

theorem Backed.take (h : Backed P r) (hone : OnePerHash P) (hq : P q) :
    Backed P (r.take q.hash q.content).2 := by
  intro p hp hcur
  have hgrows := take_grows r q.hash q.content
  rcases take_current hcur with hold | hhash
  · exact (h p hp hold).grow hgrows
  · obtain rfl := hone p q hp hq hhash
    rcases take_holds_or_stale (h p hp) with hholds | ⟨-, hstale⟩
    · exact hholds
    · rw [hstale] at hcur
      exact (h p hp hcur).grow hgrows

/-- Each message of a delivery is held in the end, or refused. -/
theorem Backed.takeAll {batch : List (Post ι)} (h : Backed P r) (hone : OnePerHash P)
    (hbatch : ∀ p ∈ batch, P p) :
    Backed P (r.takeAll batch) ∧
      ∀ p ∈ batch, (r.takeAll batch).Holds p.content ∨ (r.takeAll batch).Refused p := by
  induction batch using List.reverseRecOn with
  | nil => exact ⟨h, fun p hp => absurd hp List.not_mem_nil⟩
  | append_singleton batch q ih =>
    obtain ⟨hbacked, hall⟩ := ih fun p hp => hbatch p (List.mem_append_left [q] hp)
    have hq : P q := hbatch q (List.mem_append_right batch List.mem_cons_self)
    have hgrows := take_grows (r.takeAll batch) q.hash q.content
    rw [takeAll_concat]
    refine ⟨hbacked.take hone hq, fun p hp => ?_⟩
    rcases List.mem_append.1 hp with hp | hp
    · rcases hall p hp with hholds | hrefused
      · exact .inl (hholds.grow hgrows)
      · exact .inr ⟨retired_subset_take hrefused.retired, hrefused.seq.trans_le hgrows.seq⟩
    · obtain rfl := List.mem_singleton.1 hp
      rcases take_holds_or_stale (hbacked p hq) with hholds | ⟨hlt, hstale⟩
      · exact .inl hholds
      · rw [hstale]
        exact .inr ⟨SortedSet.mem_keys_add.2 (.inl rfl), hlt⟩

/-- What a copy has after it took a message comes from it or from the message. -/
theorem take_entries_le {m : Entries} {g : Generation} (hash : String) (hr : r.entries ≤ m)
    (hg : g.entries ≤ m) : (r.take hash g).2.entries ≤ m := by
  have ht := take_took r hash g
  generalize r.take hash g = x at ht ⊢
  cases ht with
  | known | stale => exact hr
  | copied => rwa [takeCopy_entries]
  | adopted => exact hg
  | combined => exact sup_le hr hg

theorem takeAll_entries_le {m : Entries} {batch : List (Post ι)} (hr : r.entries ≤ m)
    (hbatch : ∀ p ∈ batch, p.content.entries ≤ m) : (r.takeAll batch).entries ≤ m :=
  takeAll_induction (P := fun r' => r'.entries ≤ m)
    (fun p hp _ hr' => take_entries_le p.hash hr' (hbatch p hp)) r hr

/-- A copy that is not beyond a message has exactly what the message says when it has taken it. -/
theorem take_of_not_beyond {hash : String} {g : Generation} (hseq : r.seq ≤ g.seq)
    (hle : r.entries ≤ g.entries) (hcur : r.current = some hash → r.Holds g) :
    (r.take hash g).2.seq = g.seq ∧ (r.take hash g).2.entries = g.entries := by
  have ht := take_took r hash g
  generalize r.take hash g = x at ht ⊢
  cases ht with
  | known h => exact ⟨le_antisymm hseq (hcur h).seq, le_antisymm hle (hcur h).entries⟩
  | stale hlt => exact absurd hseq hlt.not_ge
  | copied hseq hentries => exact ⟨(takeCopy_seq r hash).trans hseq.symm,
      (takeCopy_entries r hash).trans hentries.symm⟩
  | adopted => exact ⟨rfl, rfl⟩
  | combined _ hlacks => exact absurd hle hlacks

/-- An older message changes neither the number nor the entries. -/
theorem take_of_older {g : Generation} (hash : String) (hlt : g.seq < r.seq) :
    (r.take hash g).2.seq = r.seq ∧ (r.take hash g).2.entries = r.entries := by
  have ht := take_took r hash g
  generalize r.take hash g = x at ht ⊢
  cases ht with
  | known | stale => exact ⟨rfl, rfl⟩
  | copied hseq => exact absurd hseq hlt.ne
  | adopted hseq | combined hseq => exact absurd hlt hseq.not_gt

/-! ### When nothing is lost -/

/-- Two of these messages have the highest number. What others have it say the same as one of the
two, and what is older both contain. -/
structure Tops (P : Post ι → Prop) (p q : Post ι) : Prop where
  mem : P p ∧ P q
  seq : q.content.seq = p.content.seq
  top : ∀ x, P x → x.content.seq = p.content.seq →
    x.content.entries = p.content.entries ∨ x.content.entries = q.content.entries
  below : ∀ x, P x → x.content.seq ≠ p.content.seq → x.content.seq < p.content.seq ∧
    x.content.entries ≤ p.content.entries ∧ x.content.entries ≤ q.content.entries

/-- A copy that is not beyond either of two messages. -/
structure Under (p q : Post ι) (r : Replica) : Prop where
  seq : r.seq ≤ p.content.seq
  entries : r.entries ≤ p.content.entries ∧ r.entries ≤ q.content.entries

/-- How far a copy has come: to neither of the two messages, to one of them, or to both. -/
inductive Stage (p q : Post ι) (r : Replica) : Prop where
  | neither : Under p q r → Stage p q r
  | one : r.seq = p.content.seq →
      (r.entries = p.content.entries ∨ r.entries = q.content.entries) → Stage p q r
  | both : r.entries = p.content.entries.join q.content.entries → Stage p q r

theorem Stage.congr (h : Stage p q r) (hr : r'.toStanding = r.toStanding) : Stage p q r' := by
  have hseq : r'.seq = r.seq := congrArg Standing.seq hr
  have hentries : r'.entries = r.entries := congrArg Standing.entries hr
  cases h with
  | neither h => exact .neither ⟨hseq ▸ h.seq, hentries ▸ h.entries⟩
  | one hs he => exact .one (hseq.trans hs) (hentries ▸ he)
  | both he => exact .both (hentries.trans he)

theorem Stage.le (h : Stage p q r) :
    r.entries ≤ p.content.entries.join q.content.entries := by
  cases h with
  | neither h => exact h.entries.1.trans le_sup_left
  | one _ he =>
    rcases he with he | he <;> rw [he]
    · exact le_sup_left
    · exact le_sup_right
  | both he => exact he.le

theorem Tops.le (h : Tops P p q) {x : Post ι} (hx : P x) :
    x.content.entries ≤ p.content.entries.join q.content.entries := by
  by_cases hseq : x.content.seq = p.content.seq
  · rcases h.top x hx hseq with he | he <;> rw [he]
    · exact le_sup_left
    · exact le_sup_right
  · exact (h.below x hx hseq).2.1.trans le_sup_left

theorem Under.take (h : Under p q r) {x : Post ι} (hseq : x.content.seq < p.content.seq)
    (hle : x.content.entries ≤ p.content.entries ∧ x.content.entries ≤ q.content.entries) :
    Under p q (r.take x.hash x.content).2 := by
  refine ⟨?_, take_entries_le x.hash h.entries.1 hle.1,
    take_entries_le x.hash h.entries.2 hle.2⟩
  have hr := h.seq
  have ht := take_took r x.hash x.content
  generalize r.take x.hash x.content = y at ht ⊢
  cases ht with
  | known | stale => exact hr
  | copied => rwa [takeCopy_seq]
  | adopted => exact hseq.le
  | combined hge =>
    rw [combine_seq]
    omega

/-- No message takes a copy back, and one with the highest number is held afterwards. -/
theorem Stage.take (h : Stage p q r) (htops : Tops P p q) (hbacked : Backed P r) {x : Post ι}
    (hx : P x) : Stage p q (r.take x.hash x.content).2 ∧
      (x.content.seq = p.content.seq →
        x.content.entries ≤ (r.take x.hash x.content).2.entries) := by
  have hgrows := (take_grows r x.hash x.content).entries
  by_cases hseq : x.content.seq = p.content.seq
  · have htop := htops.top x hx hseq
    cases h with
    | neither h =>
      have hle : r.entries ≤ x.content.entries := by
        rcases htop with he | he <;> rw [he]
        · exact h.entries.1
        · exact h.entries.2
      obtain ⟨hs, he⟩ := take_of_not_beyond (hseq ▸ h.seq) hle (hbacked x hx)
      exact ⟨.one (hs.trans hseq) (he ▸ htop), fun _ => he.ge⟩
    | one hr hone =>
      by_cases hsame : x.content.entries = r.entries
      · obtain ⟨hs, he⟩ := take_of_not_beyond (hr.trans hseq.symm).le hsame.ge (hbacked x hx)
        exact ⟨.one (hs.trans hseq) (he ▸ htop), fun _ => he.ge⟩
      · -- The copy has one of the two, and the message is the other.
        have hholds : x.content.entries ≤ (r.take x.hash x.content).2.entries := by
          rcases take_holds_or_stale (hbacked x hx) with hholds | ⟨hlt, -⟩
          · exact hholds.entries
          · omega
        have hall : p.content.entries.join q.content.entries ≤
            (r.take x.hash x.content).2.entries := by
          rcases hone with hr | hr <;> rcases htop with hx | hx
          · exact absurd (hx.trans hr.symm) hsame
          · exact sup_le (hr ▸ hgrows) (hx ▸ hholds)
          · exact sup_le (hx ▸ hholds) (hr ▸ hgrows)
          · exact absurd (hx.trans hr.symm) hsame
        have hle := take_entries_le x.hash (Stage.one hr hone).le (htops.le hx)
        exact ⟨.both (le_antisymm hle hall), fun _ => hholds⟩
    | both hr =>
      have hle := take_entries_le x.hash hr.le (htops.le hx)
      exact ⟨.both (le_antisymm hle (hr ▸ hgrows)), fun _ => (htops.le hx).trans (hr ▸ hgrows)⟩
  · obtain ⟨hlt, hle⟩ := htops.below x hx hseq
    refine ⟨?_, fun heq => absurd heq hseq⟩
    cases h with
    | neither h => exact .neither (h.take hlt hle)
    | one hr hone =>
      obtain ⟨hs, he⟩ := take_of_older x.hash (hr ▸ hlt)
      exact .one (hs.trans hr) (he ▸ hone)
    | both hr =>
      have hle := take_entries_le x.hash hr.le (htops.le hx)
      exact .both (le_antisymm hle (hr ▸ hgrows))

/-- A delivery takes a copy through the stages; it ends in the last one if both messages are among
those delivered. -/
theorem Stage.takeAll {batch : List (Post ι)} (h : Stage p q r) (htops : Tops P p q)
    (hbacked : Backed P r) (hone : OnePerHash P) (hbatch : ∀ x ∈ batch, P x) :
    Stage p q (r.takeAll batch) ∧ ∀ x ∈ batch, x.content.seq = p.content.seq →
      x.content.entries ≤ (r.takeAll batch).entries := by
  induction batch using List.reverseRecOn with
  | nil => exact ⟨h, fun x hx => absurd hx List.not_mem_nil⟩
  | append_singleton batch y ih =>
    have hbatch' : ∀ x ∈ batch, P x := fun x hx => hbatch x (List.mem_append_left [y] hx)
    obtain ⟨hstage, hall⟩ := ih hbatch'
    have hy : P y := hbatch y (List.mem_append_right batch List.mem_cons_self)
    obtain ⟨hnext, hheld⟩ := hstage.take htops (hbacked.takeAll hone hbatch').1 hy
    rw [takeAll_concat]
    refine ⟨hnext, fun x hx hseq => ?_⟩
    rcases List.mem_append.1 hx with hx | hx
    · exact (hall x hx hseq).trans (take_grows _ _ _).entries
    · obtain rfl := List.mem_singleton.1 hx
      exact hheld hseq

/-! ### Deliveries -/

/-- A copy has taken these messages, in some order and any number of times. -/
def Delivered (P : Post ι → Prop) (r r' : Replica) : Prop :=
  ∃ l, r'.toStanding = (r.takeAll l).toStanding ∧ ∀ p, p ∈ l ↔ P p

/-- A copy has refused a message and lacks a write of it. -/
structure Misses (r : Replica) (p : Post ι) : Prop where
  refused : r.Refused p
  lacks : ¬ p.content.entries ≤ r.entries

namespace Delivered

variable {Q : Post ι → Prop}

theorem le_entries (h : Delivered P r r') : r.entries ≤ r'.entries := by
  obtain ⟨l, hr', -⟩ := h
  have hentries : r'.entries = (r.takeAll l).entries := congrArg Standing.entries hr'
  exact hentries ▸ (takeAll_grows r l).1

theorem entries_le {m : Entries} (h : Delivered P r r') (hr : r.entries ≤ m)
    (hP : ∀ p, P p → p.content.entries ≤ m) : r'.entries ≤ m := by
  obtain ⟨l, hr', hl⟩ := h
  have hentries : r'.entries = (r.takeAll l).entries := congrArg Standing.entries hr'
  exact hentries ▸ takeAll_entries_le hr fun p hp => hP p ((hl p).1 hp)

theorem backed (h : Delivered Q r r') (hQ : ∀ p, Q p → P p) (hone : OnePerHash P)
    (hbacked : Backed P r) : Backed P r' := by
  obtain ⟨l, hr', hl⟩ := h
  exact (hbacked.takeAll hone fun p hp => hQ p ((hl p).1 hp)).1.congr hr'

theorem held_or_refused (h : Delivered P r r') (hone : OnePerHash P) (hbacked : Backed P r)
    (hp : P p) : r'.Holds p.content ∨ r'.Refused p := by
  obtain ⟨l, hr', hl⟩ := h
  have hall := (hbacked.takeAll hone fun p hp => (hl p).1 hp).2 p ((hl p).2 hp)
  exact hall.imp (fun hheld => hheld.congr hr') fun hrefused => hrefused.congr hr'

/-- A message that a copy lacks after its delivery was refused. -/
theorem misses (h : Delivered P r r') (hone : OnePerHash P) (hbacked : Backed P r) (hp : P p)
    (hlacks : ¬ p.content.entries ≤ r'.entries) : r'.Misses p := by
  rcases h.held_or_refused hone hbacked hp with hheld | hrefused
  · exact absurd hheld.entries hlacks
  · exact ⟨hrefused, hlacks⟩

theorem stage (h : Delivered Q r r') (hQ : ∀ p, Q p → P p) (hone : OnePerHash P)
    (hbacked : Backed P r) (htops : Tops P p q) (hr : Stage p q r) : Stage p q r' := by
  obtain ⟨l, hr', hl⟩ := h
  exact (hr.takeAll htops hbacked hone fun x hx => hQ x ((hl x).1 hx)).1.congr hr'

/-- After a delivery of everything a copy has what the two messages say together. -/
theorem entries_of_tops (h : Delivered P r r') (hone : OnePerHash P) (hbacked : Backed P r)
    (htops : Tops P p q) (hr : Stage p q r) :
    r'.entries = p.content.entries.join q.content.entries := by
  have hstage := h.stage (fun _ => id) hone hbacked htops hr
  obtain ⟨l, hr', hl⟩ := h
  obtain ⟨-, hall⟩ := hr.takeAll htops hbacked hone fun x hx => (hl x).1 hx
  have hentries : r'.entries = (r.takeAll l).entries := congrArg Standing.entries hr'
  refine le_antisymm hstage.le (hentries ▸ sup_le ?_ ?_)
  · exact hall p ((hl p).2 htops.mem.1) rfl
  · exact hall q ((hl q).2 htops.mem.2) htops.seq

/-- Two copies were the same. One takes some messages and then all, the other all of them at once.
They have the same entries then, unless one of them has refused a message and misses it. -/
theorem entries_eq_or_misses {r₁ r₂ r₃ : Replica} (hone : OnePerHash P) (hbacked : Backed P r)
    (hQ : ∀ p, Q p → P p) (h₁ : Delivered Q r r₁) (h₂ : Delivered P r₁ r₂)
    (h₃ : Delivered P r r₃) :
    r₂.entries = r₃.entries ∨ ∃ p, P p ∧ (r₂.Misses p ∨ r₃.Misses p) := by
  by_cases hall : ∀ p, P p → p.content.entries ≤ r₂.entries ∧ p.content.entries ≤ r₃.entries
  · left
    have hle₁ := h₁.entries_le h₃.le_entries fun p hp => (hall p (hQ p hp)).2
    exact le_antisymm (h₂.entries_le hle₁ fun p hp => (hall p hp).2)
      (h₃.entries_le (h₁.le_entries.trans h₂.le_entries) fun p hp => (hall p hp).1)
  · right
    obtain ⟨p, hp⟩ := not_forall.1 hall
    obtain ⟨hp, hlacks⟩ := Classical.not_imp.1 hp
    refine ⟨p, hp, (not_and_or.1 hlacks).imp (fun hlacks => ?_) fun hlacks => ?_⟩
    · exact h₂.misses hone (h₁.backed hQ hone hbacked) hp hlacks
    · exact h₃.misses hone hbacked hp hlacks

end Delivered

end Replica

end AccountSync
