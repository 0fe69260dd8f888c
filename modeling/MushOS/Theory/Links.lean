import Mathlib.Data.List.Basic
import Mathlib.Tactic

/-! # Linked lists threaded through a store

A node is a key of type `α`; the store gives every node its `next` and its
`prev` key. A segment of a list is a `List α` of nodes:

* `Forward next as n`: along `next`, the nodes of `as` follow one another and
  the last one points at `n`;
* `Backward prev p as`: along `prev`, each node points at the one before it and
  the first one points at `p`.

Both split at the seam of a concatenation, so the two edits a list undergoes,
linking a node in and unlinking one, are local: `Forward.insert`,
`Backward.insert`, `Forward.remove`, `Backward.remove`. Each edit asks for what
the new store says at the two neighbours and nothing else than agreement with
the old one elsewhere.
-/

namespace Links

variable {α : Type*} {next next' prev prev' : α → α}

/-- Along `next`: each node is followed by the next of the list, the last by `n`. -/
def Forward (next : α → α) : List α → α → Prop
  | [], _ => True
  | a :: as, n => next a = as.headD n ∧ Forward next as n

/-- Along `prev`: each node is preceded by the one before it, the first by `p`. -/
def Backward (prev : α → α) : α → List α → Prop
  | _, [] => True
  | p, a :: as => prev a = p ∧ Backward prev a as

@[simp] theorem forward_nil (n : α) : Forward next [] n := trivial
@[simp] theorem backward_nil (p : α) : Backward prev p [] := trivial

@[simp] theorem forward_cons {a : α} {as : List α} {n : α} :
    Forward next (a :: as) n ↔ next a = as.headD n ∧ Forward next as n := Iff.rfl

@[simp] theorem backward_cons {p a : α} {as : List α} :
    Backward prev p (a :: as) ↔ prev a = p ∧ Backward prev a as := Iff.rfl

/-! ## Concatenation -/

theorem forward_append {xs ys : List α} {n : α} :
    Forward next (xs ++ ys) n ↔ Forward next xs (ys.headD n) ∧ Forward next ys n := by
  induction xs with
  | nil => simp
  | cons a xs ih =>
    have hhead : (xs ++ ys).headD n = xs.headD (ys.headD n) := by
      cases xs <;> rfl
    rw [List.cons_append, forward_cons, forward_cons, ih, hhead, and_assoc]

theorem backward_append {p : α} {xs ys : List α} :
    Backward prev p (xs ++ ys) ↔
      Backward prev p xs ∧ Backward prev (xs.getLastD p) ys := by
  induction xs generalizing p with
  | nil => simp
  | cons a xs ih =>
    rw [List.cons_append, backward_cons, backward_cons, ih, List.getLastD_cons, and_assoc]

/-! ## Agreement of two stores -/

theorem Forward.congr {as : List α} {n : α} (h : Forward next as n)
    (hag : ∀ a ∈ as, next' a = next a) : Forward next' as n := by
  induction as with
  | nil => trivial
  | cons a as ih =>
    rw [List.forall_mem_cons] at hag
    exact ⟨hag.1.trans h.1, ih h.2 hag.2⟩

theorem Backward.congr {p : α} {as : List α} (h : Backward prev p as)
    (hag : ∀ a ∈ as, prev' a = prev a) : Backward prev' p as := by
  induction as generalizing p with
  | nil => trivial
  | cons a as ih =>
    rw [List.forall_mem_cons] at hag
    exact ⟨hag.1.trans h.1, ih h.2 hag.2⟩

/-- Following `next` from a node stays in the list, or leaves it at its end. -/
theorem Forward.closed {as : List α} {n a : α} (h : Forward next as n) (ha : a ∈ as) :
    next a = n ∨ next a ∈ as := by
  induction as with
  | nil => cases ha
  | cons b bs ih =>
    rcases List.mem_cons.mp ha with rfl | ha
    · rw [h.1]
      cases bs with
      | nil => exact Or.inl rfl
      | cons c cs => exact Or.inr (by simp)
    · exact (ih h.2 ha).imp_right (List.mem_cons_of_mem b)

/-- Redirecting the last node of a segment. -/
theorem Forward.retarget {as : List α} {n n' : α} (h : Forward next as n)
    (hmid : ∀ a ∈ as.dropLast, next' a = next a)
    (hlast : ∀ a ∈ as.getLast?, next' a = n') : Forward next' as n' := by
  rcases List.eq_nil_or_concat as with rfl | ⟨as', a, rfl⟩
  · trivial
  · rw [List.concat_eq_append] at h hmid hlast ⊢
    rw [List.dropLast_concat] at hmid
    rw [forward_append] at h ⊢
    refine ⟨h.1.congr hmid, ?_, trivial⟩
    exact hlast a (by simp)

/-- Redirecting the first node of a segment. -/
theorem Backward.retarget {p p' : α} {as : List α} (h : Backward prev p as)
    (hhead : ∀ a ∈ as.head?, prev' a = p')
    (htail : ∀ a ∈ as.tail, prev' a = prev a) : Backward prev' p' as := by
  cases as with
  | nil => trivial
  | cons a as => exact ⟨hhead a rfl, h.2.congr htail⟩

/-! ## The two edits -/

/-- Linking `b` in between `xs` and `ys`, along `next`. -/
theorem Forward.insert {xs ys : List α} {b n : α} (h : Forward next (xs ++ ys) n)
    (hmid : ∀ a ∈ xs.dropLast, next' a = next a)
    (hlast : ∀ a ∈ xs.getLast?, next' a = b)
    (hb : next' b = ys.headD n) (hys : ∀ a ∈ ys, next' a = next a) :
    Forward next' (xs ++ b :: ys) n := by
  rw [forward_append] at h ⊢
  exact ⟨h.1.retarget hmid hlast, hb, h.2.congr hys⟩

/-- Linking `b` in between `xs` and `ys`, along `prev`. -/
theorem Backward.insert {p : α} {xs ys : List α} {b : α} (h : Backward prev p (xs ++ ys))
    (hxs : ∀ a ∈ xs, prev' a = prev a) (hb : prev' b = xs.getLastD p)
    (hhead : ∀ a ∈ ys.head?, prev' a = b)
    (htail : ∀ a ∈ ys.tail, prev' a = prev a) :
    Backward prev' p (xs ++ b :: ys) := by
  rw [backward_append] at h ⊢
  exact ⟨h.1.congr hxs, hb, h.2.retarget hhead htail⟩

/-- Unlinking `b`, along `next`. -/
theorem Forward.remove {xs ys : List α} {b n : α} (h : Forward next (xs ++ b :: ys) n)
    (hmid : ∀ a ∈ xs.dropLast, next' a = next a)
    (hlast : ∀ a ∈ xs.getLast?, next' a = ys.headD n)
    (hys : ∀ a ∈ ys, next' a = next a) : Forward next' (xs ++ ys) n := by
  rw [forward_append] at h ⊢
  exact ⟨h.1.retarget hmid hlast, h.2.2.congr hys⟩

/-- Unlinking `b`, along `prev`. -/
theorem Backward.remove {p : α} {xs ys : List α} {b : α}
    (h : Backward prev p (xs ++ b :: ys)) (hxs : ∀ a ∈ xs, prev' a = prev a)
    (hhead : ∀ a ∈ ys.head?, prev' a = xs.getLastD p)
    (htail : ∀ a ∈ ys.tail, prev' a = prev a) : Backward prev' p (xs ++ ys) := by
  rw [backward_append] at h ⊢
  exact ⟨h.1.congr hxs, h.2.2.retarget hhead htail⟩

/-! ## Walking a list -/

section Walk
variable [DecidableEq α]

/-- The nodes met from `a` along `next` until `null`; `none` when the fuel runs
out first. -/
def walk (next : α → α) (null : α) : ℕ → α → Option (List α)
  | 0, _ => none
  | fuel + 1, a => if a = null then some [] else (walk next null fuel (next a)).map (a :: ·)

/-- A linked list that ends in `null` is what a walk from its head meets. -/
theorem Forward.walk {null : α} {as : List α} (h : Forward next as null)
    (hnull : null ∉ as) {fuel : ℕ} (hfuel : as.length < fuel) :
    walk next null fuel (as.headD null) = some as := by
  induction as generalizing fuel with
  | nil =>
    cases fuel with
    | zero => omega
    | succ fuel => simp [Links.walk]
  | cons a as ih =>
    cases fuel with
    | zero => simp at hfuel
    | succ fuel =>
      rw [List.mem_cons, not_or] at hnull
      have hrest := ih h.2 hnull.2 (by simpa using hfuel)
      have ha : a ≠ null := fun e => hnull.1 e.symm
      rw [← h.1] at hrest
      simp [Links.walk, ha, hrest]

end Walk

end Links
