import Mathlib.Data.List.Induction
import AccountSync.Proofs.Replica.Transition
/-!
When a copy that does not ask to be saved is as it was saved. An event leaves such a copy unmarked
and different in one case only (`step_unmarked_iff`): a change takes effect while a generation of
edits is open. So a copy stays what its last dump holds, or marked, exactly as long as it was not
restored from the dump of an edited copy and no such change was made.
-/

namespace AccountSync

/-- The standing of a copy that was restored from a dump. -/
def Standing.resumed (s : Standing) : Standing :=
  { s with seq := if s.phase = .edited then s.seq + 1 else s.seq }

theorem Standing.resume?_exact (s : Standing) : s.resume? .exact = some s.resumed := by
  unfold resume? resumed
  split <;> simp

section OfDump

variable {topic : Topic} {secret : Secret} {limit : Nat} {data : Bytes} {s s' : Standing}
  {k : Counting}

/-- A dump that is read is restored, if its number can be counted on. -/
theorem Replica.ofDump_of_resume? (h : Standing.layout.read data = .ok s)
    (hs : s.resume? k = some s') :
    Replica.ofDump topic secret limit data k = .ok (.restore topic secret limit s') := by
  rw [Replica.ofDump, h]
  dsimp only
  rw [hs]

theorem Replica.ofDump_of_read (h : Standing.layout.read data = .ok s) :
    Replica.ofDump topic secret limit data = .ok (.restore topic secret limit s.resumed) :=
  ofDump_of_resume? h s.resume?_exact

end OfDump

theorem Standing.resumed_eq_iff {s : Standing} : s.resumed = s ↔ s.phase ≠ .edited := by
  constructor
  · intro h hp
    have hseq : s.resumed.seq = s.seq := by rw [h]
    simp only [resumed, if_pos hp] at hseq
    omega
  · intro hp
    simp only [resumed, if_neg hp]

namespace Replica

variable {c : Cipher} {r : Replica} {e : Event}

/-- A change would take effect on a saved copy while a generation of edits is open. -/
def Hides (r : Replica) : Event → Prop
  | .change what => r.phase = .edited ∧ r.unsaved = false ∧ r.Effective what
  | _ => False

/-- An effective change gives a key another value. -/
theorem write_entries_ne {what : Change} (h : r.Effective what) :
    (r.write what.key what.value).entries ≠ r.entries := by
  intro he
  have hget : (r.write what.key what.value).get what.key = r.get what.key := by
    rw [get, he]
    rfl
  rw [get_write] at hget
  exact h hget.symm

/-- An event that leaves a copy unmarked changes its standing exactly if it hides a change. -/
theorem step_unmarked_iff (h : r.unsaved = false) :
    (r.step c e).unsaved = false ∧ (r.step c e).toStanding ≠ r.toStanding ↔ r.Hides e := by
  cases e with
  | change what =>
    by_cases heff : r.Effective what
    · have hw := write_wrote r what.key what.value
      have hne := write_entries_ne heff
      simp only [step, Hides, change_of_effective heff]
      generalize r.write what.key what.value = r' at hw hne ⊢
      cases hw with
      | within hp => exact ⟨fun _ => ⟨hp, h, heff⟩, fun _ => ⟨h, fun hs => hne (congrArg _ hs)⟩⟩
      | opening _ hp _ hu => exact ⟨fun hx => by simp [hu] at hx, fun hx => absurd hx.1 hp⟩
    · simp [step, Hides, change_of_not_effective heff, heff]
  | merge batch =>
    simp only [step, Hides, iff_false, not_and, not_not]
    intro hu
    rcases merge_eq_or_unsaved c r batch with hm | hm
    · rw [hm]
    · rw [hm] at hu
      cases hu
  | push nonce =>
    have hp := push_pushed c nonce r
    simp only [step, Hides, iff_false, not_and, not_not]
    generalize r.push c nonce = x at hp ⊢
    cases hp with
    | refused => exact fun _ => rfl
    | made r' _ _ _ hdirty hother =>
      intro hu
      by_cases hph : r.phase = .edited
      · simp [hdirty hph] at hu
      · exact (hother hph).1
  | confirm seq hash =>
    have hc := confirm_confirmed r seq hash
    simp only [step, Hides, iff_false, not_and, not_not]
    generalize r.confirm seq hash = x at hc ⊢
    cases hc with
    | applied r' _ _ _ _ _ _ hu => exact fun hx => by simp [hu] at hx
    | ignored => exact fun _ => rfl
  | dump => simp [step, Hides, Replica.dump]

/-- Only a dump takes the mark away. -/
theorem step_marked (h : r.unsaved = true) (he : e ≠ .dump) : (r.step c e).unsaved = true := by
  cases e with
  | change what =>
    by_cases heff : r.Effective what
    · have hw := write_wrote r what.key what.value
      simp only [step, change_of_effective heff]
      generalize r.write what.key what.value = r' at hw ⊢
      cases hw with
      | within => exact h
      | opening _ _ _ hu => exact hu
    · simp [step, change_of_not_effective heff, h]
  | merge batch =>
    rcases merge_eq_or_unsaved c r batch with hm | hm
    · simp [step, hm, h]
    · exact hm
  | push nonce =>
    have hp := push_pushed c nonce r
    simp only [step]
    generalize r.push c nonce = x at hp ⊢
    cases hp with
    | refused => exact h
    | made r' _ _ _ hdirty hother =>
      by_cases hph : r.phase = .edited
      · exact hdirty hph
      · rw [(hother hph).2, h]
  | confirm seq hash =>
    have hc := confirm_confirmed r seq hash
    simp only [step]
    generalize r.confirm seq hash = x at hc ⊢
    cases hc with
    | applied r' _ _ _ _ _ _ hu => exact hu
    | ignored => exact h
  | dump => exact absurd rfl he

/-- A copy is marked as unsaved, or it stands as `s` says. -/
def SavedAs (r : Replica) (s : Standing) : Prop := r.unsaved = false → r.toStanding = s

theorem SavedAs.step {s : Standing} (hs : r.SavedAs s) (he : e ≠ .dump) (hn : ¬ r.Hides e) :
    (r.step c e).SavedAs s := by
  intro hu
  cases h : r.unsaved with
  | false =>
    rw [← hs h]
    by_contra hne
    exact hn ((step_unmarked_iff h).1 ⟨hu, hne⟩)
  | true =>
    rw [step_marked h he] at hu
    cases hu

theorem savedAs_dump (c : Cipher) (r : Replica) : (r.step c .dump).SavedAs r.toStanding :=
  fun _ => rfl

theorem SavedAs.not_step {s : Standing} (hs : r.SavedAs s) (hh : r.Hides e) :
    ¬ (r.step c e).SavedAs s := by
  intro hs'
  have hu : r.unsaved = false := by
    cases e <;> simp only [Hides] at hh
    exact hh.2.1
  obtain ⟨hu', hne⟩ := (step_unmarked_iff (c := c) hu).2 hh
  exact hne ((hs' hu').trans (hs hu).symm)

end Replica

open Replica (Event)

/-- A copy, and what was last saved of it. -/
structure Kept where
  copy : Replica
  /-- What the last dump holds: one that was made, or the one from which the copy was restored. A
  fresh copy counts as saved. -/
  saved : Standing

namespace Kept

variable {c : Cipher} {k : Kept}

/-- How a copy comes to be: without entries, or from the bytes of a dump. -/
inductive Begins : Kept → Prop where
  | fresh (topic : Topic) (secret : Secret) (limit : Nat) : Begins ⟨.fresh topic secret limit, {}⟩
  | restored {topic : Topic} {secret : Secret} {limit : Nat} {data : Bytes} {s : Standing}
      {r : Replica} : Standing.layout.read data = .ok s →
      Replica.ofDump topic secret limit data = .ok r → Begins ⟨r, s⟩

def step (c : Cipher) (k : Kept) (e : Event) : Kept :=
  ⟨k.copy.step c e, if e = .dump then k.copy.toStanding else k.saved⟩

def run (c : Cipher) (k : Kept) (es : List Event) : Kept := es.foldl (step c) k

/-- The copy asks to be saved, or is what was last saved of it. -/
def Sound (k : Kept) : Prop := k.copy.SavedAs k.saved

/-- No event of a run hides a change. -/
def Open (c : Cipher) (k : Kept) (es : List Event) : Prop :=
  ∀ p e, p ++ [e] <+: es → ¬ (k.run c p).copy.Hides e

theorem run_append (k : Kept) (p : List Event) (e : Event) :
    k.run c (p ++ [e]) = (k.run c p).step c e := by
  rw [run, List.foldl_append]
  rfl

theorem Open.of_append {es : List Event} {e : Event} (h : k.Open c (es ++ [e])) : k.Open c es :=
  fun p e' hp => h p e' (hp.trans (List.prefix_append es [e]))

theorem Begins.copy_eq (h : k.Begins) :
    k.copy.toStanding = k.saved.resumed ∧ k.copy.unsaved = false := by
  cases h with
  | fresh topic secret limit => exact ⟨rfl, rfl⟩
  | restored hread hdump =>
    rw [Replica.ofDump_of_read hread] at hdump
    obtain rfl := Except.ok.inj hdump
    exact ⟨rfl, rfl⟩

theorem sound_step {e : Event} (hk : k.Sound) (hn : ¬ k.copy.Hides e) : (k.step c e).Sound := by
  by_cases he : e = .dump
  · subst he
    exact Replica.savedAs_dump c k.copy
  · unfold Sound step
    rw [if_neg he]
    exact Replica.SavedAs.step hk he hn

/-- A run that begins sound stays so exactly as long as it hides no change. -/
theorem sound_iff_open (hk : k.Sound) (es : List Event) :
    (∀ p, p <+: es → (k.run c p).Sound) ↔ k.Open c es := by
  constructor
  · intro hall p e hp hh
    have hpre : (k.run c p).Sound := hall p ((List.prefix_append p [e]).trans hp)
    have hpost : (k.run c (p ++ [e])).Sound := hall _ hp
    have he : e ≠ .dump := by
      rintro rfl
      exact hh
    rw [run_append, Sound, step, if_neg he] at hpost
    exact Replica.SavedAs.not_step hpre hh hpost
  · intro hopen p
    induction p using List.reverseRecOn with
    | nil => exact fun _ => hk
    | append_singleton p e ih =>
      intro hp
      rw [run_append]
      exact sound_step (ih ((List.prefix_append p [e]).trans hp)) (hopen p e hp)

/-- What a run that hides no change leaves unmarked is what was last saved, or what was restored. -/
theorem savedAs_run (hk : k.Begins) {es : List Event} (hopen : k.Open c es) :
    (k.run c es).copy.SavedAs (if .dump ∈ es then (k.run c es).saved else k.saved.resumed) := by
  induction es using List.reverseRecOn with
  | nil => exact fun _ => hk.copy_eq.1
  | append_singleton es e ih =>
    have hn := hopen es e (List.prefix_refl _)
    have ih := ih hopen.of_append
    rw [run_append]
    by_cases he : e = .dump
    · subst he
      rw [if_pos (by simp)]
      exact Replica.savedAs_dump c (k.run c es).copy
    · have hmem : .dump ∈ es ++ [e] ↔ .dump ∈ es := by simp [Ne.symm he]
      simp only [hmem, step, if_neg he]
      exact ih.step he hn

/-- The law that an unmarked copy is what was last saved of it holds throughout a run exactly if the
copy was not restored from an edited one and the run hides no change. Where only the first fails,
the copy differs from what was restored by the sequence number that restoring skips, until it is
saved. -/
theorem saved_throughout_iff (c : Cipher) {k : Kept} (hk : k.Begins) (es : List Event) :
    ((∀ p, p <+: es → (k.run c p).Sound) ↔ k.saved.phase ≠ .edited ∧ k.Open c es) ∧
      (k.Open c es → (k.run c es).copy.SavedAs
        (if .dump ∈ es then (k.run c es).saved else k.saved.resumed)) := by
  obtain ⟨hstand, hunsaved⟩ := hk.copy_eq
  have hbegin : k.Sound ↔ k.saved.phase ≠ .edited := by
    rw [← Standing.resumed_eq_iff, ← hstand]
    exact ⟨fun h => h hunsaved, fun h _ => h⟩
  refine ⟨⟨fun hall => ?_, fun h => (sound_iff_open (hbegin.2 h.1) es).2 h.2⟩, savedAs_run hk⟩
  have hk₀ : k.Sound := hall [] List.nil_prefix
  exact ⟨hbegin.1 hk₀, (sound_iff_open hk₀ es).1 hall⟩

/-- The law holds of a copy that is filled, saved and published. -/
theorem saved_throughout_published :
    let k : Kept := ⟨.fresh .contacts default, {}⟩
    let es : List Event := [.change ⟨"a", some [1]⟩, .dump, .push [], .confirm 1 "h", .dump]
    k.Begins ∧ ∀ p, p <+: es → (k.run .xchacha20Poly1305 p).Sound := by
  intro k es
  have hk : k.Begins := .fresh .contacts default Replica.defaultLimit
  have hopen : k.Open .xchacha20Poly1305 es := by
    intro p e hp hh
    obtain ⟨what, rfl⟩ : ∃ what, e = .change what := by
      cases e <;> first | exact ⟨_, rfl⟩ | exact hh.elim
    cases p with
    | nil => exact absurd hh.1 (by decide)
    | cons x p =>
      obtain ⟨_, hp⟩ := List.cons_prefix_cons.1 hp
      have hmem := hp.subset (List.mem_append_right p List.mem_cons_self)
      simp at hmem
  exact ⟨hk, (saved_throughout_iff _ hk es).1.2 ⟨by decide, hopen⟩⟩

/-- The second change of one generation is hidden if a dump was made between the two. -/
theorem not_sound_second_change :
    let k : Kept := ⟨.fresh .contacts default, {}⟩
    ¬ (k.run .xchacha20Poly1305
      [.change ⟨"a", some [1]⟩, .dump, .change ⟨"b", some [2]⟩]).Sound := by
  intro k h
  have hsize := congrArg (fun s => s.entries.size) (h rfl)
  revert hsize
  decide

end Kept

end AccountSync
