import Mathlib.Order.Lattice
import Mathlib.Data.List.Basic

/-!
# Tournament lists: offer an entry, drop what it beats, keep the list in order

A tournament list is a list of survivors. Offering a new entry walks the
list from the front and compares the new entry with each old one. The
comparison (`Verdict`) may keep both, drop the old entry, or reject the new
one; a rejection ends the walk, but old entries dropped before it stay
dropped. An accepted entry is inserted after the last kept entry that the
order test `after` puts before it.

Results:
* `offer_rejected_iff`: the new entry is rejected iff some entry of the list
  rejects it, wherever it stands.
* `offer_cases`: the list after one offer, in both outcomes.
* `offer_pairwise`: an ordered list stays pairwise related by any relation
  the new entry keeps with the entries on either side of it.
* `run_covers`: if both kinds of loss imply a preorder `dom`, then after any
  run every entry ever offered is dominated by a survivor.
-/
namespace GreenPipeline.Core.Tournament

open List

/-- Outcome of comparing the new entry with one old entry. -/
inductive Verdict
  | keepBoth
  | removeOld
  | rejectNew
  deriving DecidableEq, Repr

/-- The list after an offer, and whether the new entry is in it. -/
structure Result (α : Type*) where
  entries : List α
  accepted : Bool
  deriving Repr

variable {α : Type*}

/-- The walk. `kept` is the part of the list already passed (without the
dropped entries), `ins` the number of its cells up to the insertion point. -/
def scan (verdict : α → α → Verdict) (after : α → α → Bool) (new : α) :
    List α → Nat → List α → Result α
  | kept, ins, [] => ⟨kept.take ins ++ new :: kept.drop ins, true⟩
  | kept, ins, old :: rest =>
    match verdict new old with
    | .removeOld => scan verdict after new kept ins rest
    | .keepBoth =>
      scan verdict after new (kept ++ [old]) (if after new old then kept.length + 1 else ins) rest
    | .rejectNew => ⟨kept ++ old :: rest, false⟩

def offer (verdict : α → α → Verdict) (after : α → α → Bool) (l : List α) (new : α) : Result α :=
  scan verdict after new [] 0 l

/-- The survivors of a sequence of offers to `l`. -/
def run (verdict : α → α → Verdict) (after : α → α → Bool) (l : List α)
    (offers : List α) : List α :=
  offers.foldl (fun l new => (offer verdict after l new).entries) l

section
variable {verdict : α → α → Verdict} {after : α → α → Bool} {new : α}

/-! ## One offer -/

theorem scan_rejected_iff : ∀ (l kept : List α) (ins : Nat),
    (scan verdict after new kept ins l).accepted = false ↔ ∃ o ∈ l, verdict new o = .rejectNew
  | [], kept, ins => by simp [scan]
  | old :: rest, kept, ins => by
    simp only [scan, mem_cons, exists_eq_or_imp]
    split
    · rename_i h; simp [scan_rejected_iff rest, h]
    · rename_i h; simp [scan_rejected_iff rest, h]
    · rename_i h; simp [h]

/-- The new entry is rejected iff some entry of the list rejects it. -/
theorem offer_rejected_iff (l : List α) :
    (offer verdict after l new).accepted = false ↔ ∃ o ∈ l, verdict new o = .rejectNew :=
  scan_rejected_iff l [] 0

/-- The entries the new one does not drop. -/
def keptBy (verdict : α → α → Verdict) (new : α) (l : List α) : List α :=
  l.filter (fun o => decide (verdict new o ≠ .removeOld))

theorem keptBy_sublist (l : List α) : (keptBy verdict new l).Sublist l := filter_sublist

theorem mem_keptBy {l : List α} {o : α} :
    o ∈ keptBy verdict new l ↔ o ∈ l ∧ verdict new o ≠ .removeOld := by
  simp [keptBy]

variable (verdict after new) in
theorem scan_cases : ∀ (l kept : List α)
    (ins : Nat), ((scan verdict after new kept ins l).accepted = true ∧
      ∃ a b, a ++ b = kept ++ keptBy verdict new l ∧
        (scan verdict after new kept ins l).entries = a ++ new :: b) ∨
    ((scan verdict after new kept ins l).accepted = false ∧ ∃ pre o post, l = pre ++ o :: post ∧
      verdict new o = .rejectNew ∧
        (scan verdict after new kept ins l).entries = kept ++ keptBy verdict new pre ++ o :: post)
  | [], kept, ins => by
    left
    exact ⟨rfl, kept.take ins, kept.drop ins, by simp [keptBy], rfl⟩
  | old :: rest, kept, ins => by
    simp only [scan]
    split
    · rename_i h
      have hk : ∀ l, keptBy verdict new (old :: l) = keptBy verdict new l := fun l => by
        simp [keptBy, h]
      rw [hk]
      rcases scan_cases rest kept ins with hacc | ⟨hr, pre, o, post, rfl, ho, he⟩
      · exact .inl hacc
      · exact .inr ⟨hr, old :: pre, o, post, rfl, ho, by rw [hk, he]⟩
    · rename_i h
      have hk : ∀ l, keptBy verdict new (old :: l) = old :: keptBy verdict new l := fun l => by
        simp [keptBy, h]
      rw [hk]
      rcases scan_cases rest (kept ++ [old]) (if after new old then kept.length + 1 else ins) with
        ⟨ha, a, b, hab, he⟩ | ⟨hr, pre, o, post, rfl, ho, he⟩
      · exact .inl ⟨ha, a, b, by simpa using hab, he⟩
      · exact .inr ⟨hr, old :: pre, o, post, rfl, ho, by rw [hk, he]; simp⟩
    · rename_i h
      exact .inr ⟨rfl, [], old, rest, rfl, h, by simp [keptBy]⟩

variable (verdict after new) in
/-- The list after one offer. Accepted: the new entry stands somewhere among
the kept ones. Rejected: the entries before the rejecting one are thinned
out, the rejecting one and everything behind it stay. -/
theorem offer_cases (l : List α) : ((offer verdict after l new).accepted = true ∧
      ∃ a b, a ++ b = keptBy verdict new l ∧ (offer verdict after l new).entries = a ++ new :: b) ∨
    ((offer verdict after l new).accepted = false ∧ ∃ pre o post, l = pre ++ o :: post ∧
      verdict new o = .rejectNew ∧
        (offer verdict after l new).entries = keptBy verdict new pre ++ o :: post) := by
  simpa [offer] using scan_cases verdict after new l [] 0

/-- A rejected entry leaves a sublist of the old list. -/
theorem offer_rejected_sublist {l : List α} (h : (offer verdict after l new).accepted = false) :
    (offer verdict after l new).entries.Sublist l := by
  rcases offer_cases verdict after new l with
    ⟨ha, -⟩ | ⟨-, pre, o, post, rfl, -, he⟩
  · rw [h] at ha; cases ha
  · rw [he]; exact (keptBy_sublist pre).append (List.Sublist.refl _)

/-- Survivors are old entries or the new one. -/
theorem mem_of_mem_offer {l : List α} {q : α} (h : q ∈ (offer verdict after l new).entries) :
    q ∈ l ∨ q = new := by
  rcases offer_cases verdict after new l with
    ⟨-, a, b, hab, he⟩ | ⟨hr, -⟩
  · rw [he] at h
    have hq : q ∈ a ++ b ∨ q = new := by
      simp only [mem_append, mem_cons] at h ⊢; tauto
    rcases hq with hq | hq
    · rw [hab] at hq; exact .inl ((keptBy_sublist l).subset hq)
    · exact .inr hq
  · exact .inl ((offer_rejected_sublist hr).subset h)

/-- Survivors of a run were in the start list or were offered. -/
theorem mem_of_mem_run {q : α} :
    ∀ {offers l : List α}, q ∈ run verdict after l offers → q ∈ l ∨ q ∈ offers
  | [], _, h => .inl h
  | n :: ns, l, h => by
    rcases (mem_of_mem_run h : _ ∨ q ∈ ns) with h | h
    · rcases mem_of_mem_offer h with h | rfl
      · exact .inl h
      · exact .inr mem_cons_self
    · exact .inr (mem_cons_of_mem _ h)

/-! ## Domination -/

section
variable {dom : α → α → Prop}

/-- One offer loses nothing: what an old entry dominated, and the new entry
itself, is dominated by a survivor. An entry dropped before the new one is
rejected is dominated through both. -/
theorem offer_covers (hrefl : ∀ a, dom a a) (htrans : ∀ {a b c}, dom a b → dom b c → dom a c)
    (hrem : ∀ {n o}, verdict n o = .removeOld → dom n o)
    (hrej : ∀ {n o}, verdict n o = .rejectNew → dom o n) {l : List α} {p : α}
    (h : p = new ∨ ∃ q ∈ l, dom q p) : ∃ q ∈ (offer verdict after l new).entries, dom q p := by
  rcases offer_cases verdict after new l with
    ⟨-, a, b, hab, he⟩ | ⟨-, pre, o, post, rfl, ho, he⟩
  · have hnew : new ∈ (offer verdict after l new).entries := by rw [he]; simp
    rcases h with rfl | ⟨q, hq, hd⟩
    · exact ⟨p, hnew, hrefl p⟩
    · by_cases hv : verdict new q = .removeOld
      · exact ⟨new, hnew, htrans (hrem hv) hd⟩
      · have : q ∈ a ++ b := by rw [hab]; exact mem_keptBy.2 ⟨hq, hv⟩
        refine ⟨q, ?_, hd⟩
        rw [he]; simp only [mem_append, mem_cons] at this ⊢; tauto
  · have hmem : o ∈ (offer verdict after (pre ++ o :: post) new).entries := by rw [he]; simp
    rcases h with rfl | ⟨q, hq, hd⟩
    · exact ⟨o, hmem, hrej ho⟩
    · rcases mem_append.1 hq with hq | hq
      · by_cases hv : verdict new q = .removeOld
        · exact ⟨o, hmem, htrans (hrej ho) (htrans (hrem hv) hd)⟩
        · refine ⟨q, ?_, hd⟩
          rw [he]; exact mem_append_left _ (mem_keptBy.2 ⟨hq, hv⟩)
      · refine ⟨q, ?_, hd⟩
        rw [he]; exact mem_append_right _ hq

/-- **Nothing offered is lost.** After any run every offered entry, and every
entry of the start list, is dominated by a survivor. -/
theorem run_covers (hrefl : ∀ a, dom a a) (htrans : ∀ {a b c}, dom a b → dom b c → dom a c)
    (hrem : ∀ {n o}, verdict n o = .removeOld → dom n o)
    (hrej : ∀ {n o}, verdict n o = .rejectNew → dom o n) :
    ∀ (offers l : List α) (p : α), (p ∈ offers ∨ ∃ q ∈ l, dom q p) →
      ∃ q ∈ run verdict after l offers, dom q p
  | [], l, p, h => by simpa [run] using h
  | n :: ns, l, p, h => by
    have hstep : p = n ∨ (∃ q ∈ l, dom q p) → ∃ q ∈ (offer verdict after l n).entries, dom q p :=
      offer_covers hrefl htrans hrem hrej
    refine run_covers hrefl htrans hrem hrej ns _ p ?_
    rcases h with h | h
    · rcases mem_cons.1 h with h | h
      · exact .inr (hstep (.inl h))
      · exact .inl h
    · exact .inr (hstep (.inr h))

end
end

/-! ## Order -/

section
variable {κ : Type*} [LinearOrder κ] {key : α → κ} {verdict : α → α → Verdict} {new : α}

/-- The order test of a list kept sorted by `key`: the new entry belongs
after an old one with the same or a smaller key. -/
def byKey (key : α → κ) (new old : α) : Bool := decide (key old ≤ key new)

/-- The insertion point splits the kept part by key. -/
def Split (key : α → κ) (new : α) (kept : List α) (ins : Nat) : Prop :=
  (∀ x ∈ kept.take ins, key x ≤ key new) ∧ (∀ x ∈ kept.drop ins, key new < key x)

/-- Appending a kept entry moves the insertion point past it exactly when
its key allows it. With the list sorted, entries before it have smaller keys. -/
theorem split_snoc {kept : List α} {ins : Nat} {old : α} (hins : ins ≤ kept.length)
    (hs : Split key new kept ins) (hle : ∀ x ∈ kept, key x ≤ key old) :
    (if byKey key new old then kept.length + 1 else ins) ≤ (kept ++ [old]).length ∧
      Split key new (kept ++ [old]) (if byKey key new old then kept.length + 1 else ins) := by
  by_cases h : key old ≤ key new
  · have hk : kept.length + 1 = (kept ++ [old]).length := by simp
    simp only [byKey, h, decide_true, if_true]
    refine ⟨Nat.le_of_eq hk, ?_, ?_⟩
    · intro x hx
      rcases mem_append.1 (mem_of_mem_take hx) with hx | hx
      · exact (hle x hx).trans h
      · rw [mem_singleton.1 hx]; exact h
    · intro x hx
      rw [hk, drop_length] at hx; cases hx
  · simp only [byKey, h, decide_false, Bool.false_eq_true, if_false]
    refine ⟨by simp; omega, ?_, ?_⟩
    · intro x hx
      rw [take_append_of_le_length hins] at hx
      exact hs.1 x hx
    · intro x hx
      rw [drop_append_of_le_length hins] at hx
      rcases mem_append.1 hx with hx | hx
      · exact hs.2 x hx
      · rw [mem_singleton.1 hx]; exact not_le.1 h

/-- A list pairwise related by `R` stays so when an entry is put between its
two halves and is related to both. -/
theorem pairwise_insert {R : α → α → Prop} {a b : List α} (h : (a ++ b).Pairwise R)
    (ha : ∀ x ∈ a, R x new) (hb : ∀ x ∈ b, R new x) : (a ++ new :: b).Pairwise R := by
  rw [pairwise_append] at h ⊢
  obtain ⟨h1, h2, h3⟩ := h
  refine ⟨h1, pairwise_cons.2 ⟨hb, h2⟩, ?_⟩
  intro x hx y hy
  rcases mem_cons.1 hy with rfl | hy
  · exact ha x hx
  · exact h3 x hx y hy

theorem scan_pairwise {R : α → α → Prop} : ∀ (l kept : List α) (ins : Nat), ins ≤ kept.length →
    Split key new kept ins → (kept ++ l).Pairwise (fun a b => key a ≤ key b) →
    (kept ++ l).Pairwise R →
    (∀ o ∈ kept ++ l, (key o ≤ key new → R o new) ∧ (key new < key o → R new o)) →
    (scan verdict (byKey key) new kept ins l).entries.Pairwise R
  | [], kept, ins, _, hsp, _, hR, hnew => by
    simp only [List.append_nil] at hR hnew
    simp only [scan]
    refine pairwise_insert (by rwa [List.take_append_drop]) ?_ ?_
    · intro x hx; exact (hnew x (List.mem_of_mem_take hx)).1 (hsp.1 x hx)
    · intro x hx; exact (hnew x (List.mem_of_mem_drop hx)).2 (hsp.2 x hx)
  | old :: rest, kept, ins, hins, hsp, hs, hR, hnew => by
    have hsub : (kept ++ rest).Sublist (kept ++ old :: rest) :=
      (List.Sublist.refl _).append (sublist_cons_self _ _)
    have hcons : kept ++ old :: rest = (kept ++ [old]) ++ rest := by simp
    simp only [scan]
    split
    · exact scan_pairwise rest kept ins hins hsp (hs.sublist hsub) (hR.sublist hsub)
        (fun o ho => hnew o (hsub.subset ho))
    · have hle : ∀ x ∈ kept, key x ≤ key old := fun x hx =>
        (pairwise_append.1 hs).2.2 x hx old (by simp)
      obtain ⟨h1, h2⟩ := split_snoc hins hsp hle
      rw [hcons] at hs hR hnew
      exact scan_pairwise rest (kept ++ [old]) _ h1 h2 hs hR hnew
    · exact hR

section

variable {l : List α} (hs : l.Pairwise (fun a b => key a ≤ key b))
include hs

/-- One offer to a list sorted by `key` keeps any pairwise relation that the
new entry has with the entries of smaller-or-equal and of larger key. -/
theorem offer_pairwise {R : α → α → Prop} (hR : l.Pairwise R)
    (hnew : ∀ o ∈ l, (key o ≤ key new → R o new) ∧ (key new < key o → R new o)) :
    (offer verdict (byKey key) l new).entries.Pairwise R :=
  scan_pairwise l [] 0 (Nat.zero_le _) ⟨by simp, by simp⟩ hs hR hnew

theorem offer_sorted :
    (offer verdict (byKey key) l new).entries.Pairwise (fun a b => key a ≤ key b) :=
  offer_pairwise hs hs (fun _ _ => ⟨id, le_of_lt⟩)

end

variable (key) in
/-- A run keeps the list sorted by key. -/
theorem run_sorted : ∀ (offers l : List α), l.Pairwise (fun a b => key a ≤ key b) →
    (run verdict (byKey key) l offers).Pairwise (fun a b => key a ≤ key b)
  | [], _, h => h
  | _ :: ns, _, h => run_sorted ns _ (offer_sorted h)

end

end GreenPipeline.Core.Tournament
