import MushOS.Base.HeapLayout

/-! # The three edits of a heap

What linking a block in, unlinking one and rewriting a size do to a well-formed
heap. Each edit is stated over what the new headers say (the fields of the
blocks, whatever memory holds them): the list part is `Links.Forward` and
`Links.Backward`, the rest is the order of the blocks.
-/

namespace MushOS

open ByteMemory Links

/-- `h'` is a heap over the same bytes as `h`: only the list may differ. -/
structure SameBounds (h h' : Heap) : Prop where
  header : h'.header = h.header
  heapStart : h'.heapStart = h.heapStart
  heapEnd : h'.heapEnd = h.heapEnd

/-- The block before the gap between `xs` and `ys`, null when there is none. -/
def lastAddr (xs : List Block) : UDword := (addrs xs).getLastD 0

/-- The block after the gap between `xs` and `ys`, null when there is none. -/
def headAddr (ys : List Block) : UDword := (addrs ys).headD 0

@[simp] theorem lastAddr_nil : lastAddr [] = 0 := rfl
@[simp] theorem headAddr_nil : headAddr [] = 0 := rfl
@[simp] theorem headAddr_cons (c : Block) (ys : List Block) : headAddr (c :: ys) = c.addr := rfl
@[simp] theorem lastAddr_concat (xs : List Block) (b : Block) :
    lastAddr (xs ++ [b]) = b.addr := by
  simp [lastAddr, List.getLastD_eq_getLast?]

theorem lastAddr_eq_or_mem (xs : List Block) : lastAddr xs = 0 ∨ lastAddr xs ∈ addrs xs := by
  rcases List.eq_nil_or_concat xs with rfl | ⟨xs', b, rfl⟩
  · exact Or.inl rfl
  · rw [List.concat_eq_append, lastAddr_concat]
    exact Or.inr (by simp)

theorem headAddr_eq_or_mem (ys : List Block) : headAddr ys = 0 ∨ headAddr ys ∈ addrs ys := by
  cases ys with
  | nil => exact Or.inl rfl
  | cons c ys => exact Or.inr (by simp)

/-- The nodes of a list other than its last one. -/
theorem ne_lastAddr_of_mem_dropLast {xs : List Block} (hnd : (addrs xs).Nodup) {a : UDword}
    (ha : a ∈ (addrs xs).dropLast) : a ≠ lastAddr xs := by
  rcases List.eq_nil_or_concat xs with rfl | ⟨xs', b, rfl⟩
  · simp at ha
  · rw [List.concat_eq_append] at hnd ha ⊢
    rw [lastAddr_concat]
    simp only [addrs_append, addrs_cons, addrs_nil, List.dropLast_concat] at ha hnd
    rintro rfl
    exact List.disjoint_of_nodup_append hnd ha (by simp)

theorem eq_lastAddr_of_mem_getLast? {xs : List Block} {a : UDword}
    (ha : a ∈ (addrs xs).getLast?) : a = lastAddr xs := by
  rw [Option.mem_def] at ha
  simp [lastAddr, List.getLastD_eq_getLast?, ha]

theorem eq_headAddr_of_mem_head? {ys : List Block} {a : UDword}
    (ha : a ∈ (addrs ys).head?) : a = headAddr ys := by
  rw [Option.mem_def] at ha
  cases ys with
  | nil => simp at ha
  | cons c ys => simpa using ha.symm

theorem ne_headAddr_of_mem_tail {ys : List Block} (hnd : (addrs ys).Nodup) {a : UDword}
    (ha : a ∈ (addrs ys).tail) : a ≠ headAddr ys := by
  cases ys with
  | nil => simp at ha
  | cons c ys =>
    rintro rfl
    exact (List.nodup_cons.mp hnd).1 ha

/-- A block on one side of a gap is not the neighbour on the other side. -/
theorem ne_neighbour {xs ys : List Block} (hnd : (addrs xs ++ addrs ys).Nodup)
    (h0 : ∀ a ∈ addrs xs ++ addrs ys, a ≠ 0) :
    (∀ a ∈ addrs xs, a ≠ headAddr ys) ∧ ∀ a ∈ addrs ys, a ≠ lastAddr xs := by
  have hdisj := List.disjoint_of_nodup_append hnd
  constructor
  · intro a ha e
    rcases headAddr_eq_or_mem ys with h | h
    · exact h0 a (List.mem_append_left _ ha) (e.trans h)
    · exact hdisj ha (e ▸ h)
  · intro a ha e
    rcases lastAddr_eq_or_mem xs with h | h
    · exact h0 a (List.mem_append_right _ ha) (e.trans h)
    · exact hdisj h (e ▸ ha)

namespace WellFormed
variable {h h' : Heap} {xs ys : List Block} {b : Block} {p size : UDword}

/-- The bounds of a heap carry over to another one over the same bytes. -/
theorem of_fields {blocks blocks' : List Block} (hw : WellFormed h blocks)
    (hs : SameBounds h h') (hfirst : h'.firstAddress = headAddr blocks')
    (hsize : ∀ b ∈ blocks', h'.field .size b.addr = b.size)
    (hnext : Forward (h'.field .next) (addrs blocks') 0)
    (hprev : Backward (h'.field .previous) 0 (addrs blocks'))
    (hsorted : blocks'.Pairwise Block.Before)
    (hinside : ∀ b ∈ blocks', h.heapStart.toNat + 12 ≤ b.addr.toNat ∧
      b.stop ≤ h.heapEnd.toNat ∧ b.addr.toNat < h.heapEnd.toNat) :
    WellFormed h' blocks' where
  heapStart := by rw [hs.heapStart, hs.header, hw.heapStart]
  heapEnd := by rw [hs.heapStart, hs.heapEnd]; exact hw.heapEnd
  first := hfirst
  size := hsize
  next := hnext
  previous := hprev
  sorted := hsorted
  inside := by rw [hs.heapStart, hs.heapEnd]; exact hinside

theorem nodup (hw : WellFormed h (xs ++ ys)) : (addrs xs ++ addrs ys).Nodup := by
  have := nodup_addrs hw.sorted
  rwa [addrs_append] at this

/-- The blocks with a new one in a gap are again in order and inside. -/
theorem insert_order (hw : WellFormed h (xs ++ ys))
    (hfree : gapStart h.heapStart.toNat xs + 12 ≤ p.toNat)
    (hfit : p.toNat + size.toNat ≤ gapStop h.heapEnd.toNat ys)
    (hend : p.toNat < h.heapEnd.toNat) :
    (xs ++ ⟨p, size⟩ :: ys).Pairwise Block.Before ∧
      ∀ b ∈ xs ++ ⟨p, size⟩ :: ys, h.heapStart.toNat + 12 ≤ b.addr.toNat ∧
        b.stop ≤ h.heapEnd.toNat ∧ b.addr.toNat < h.heapEnd.toNat := by
  rcases List.pairwise_append.mp hw.sorted with ⟨hsx, hsy, hsxy⟩
  have hinx : ∀ b ∈ xs, _ := fun b hb => hw.inside b (List.mem_append_left _ hb)
  have hiny : ∀ b ∈ ys, _ := fun b hb => hw.inside b (List.mem_append_right _ hb)
  have hbefore : ∀ a ∈ xs, a.Before ⟨p, size⟩ := by
    intro a ha
    have := stop_le_gapStart h.heapStart.toNat hsx ha
    exact le_trans (by omega) hfree
  have hafter : ∀ c ∈ ys, (⟨p, size⟩ : Block).Before c := by
    intro c hc
    have := gapStop_le h.heapEnd.toNat hsy hc fun c hc => by
      have := (hiny c hc).1
      omega
    unfold Block.Before Block.stop
    simp only
    omega
  constructor
  · rw [List.pairwise_append]
    refine ⟨hsx, List.pairwise_cons.mpr ⟨hafter, hsy⟩, fun a ha c hc => ?_⟩
    rcases List.mem_cons.mp hc with rfl | hc
    · exact hbefore a ha
    · exact hsxy a ha c hc
  · intro b hb
    rcases List.mem_append.mp hb with hb | hb
    · exact hinx b hb
    rcases List.mem_cons.mp hb with rfl | hb
    · -- the gap lies inside the heap whichever blocks are around it
      have hlo : h.heapStart.toNat ≤ gapStart h.heapStart.toNat xs := by
        rcases List.eq_nil_or_concat xs with rfl | ⟨xs', l, rfl⟩
        · exact le_refl _
        · have := (hinx l (by simp)).1
          rw [List.concat_eq_append, gapStart_concat]
          unfold Block.stop
          omega
      have hhi : gapStop h.heapEnd.toNat ys ≤ h.heapEnd.toNat := by
        cases ys with
        | nil => exact le_refl _
        | cons c ys =>
          have := (hiny c (by simp)).2.2
          rw [gapStop_cons]
          omega
      exact ⟨by simp only; omega, by unfold Block.stop; simp only; omega, hend⟩
    · exact hiny b hb

/-- **Linking in.** The new headers say: the new block has the given size and
lies between its neighbours, the neighbours point at it, the rest is as before. -/
theorem insert (hw : WellFormed h (xs ++ ys))
    (hfree : gapStart h.heapStart.toNat xs + 12 ≤ p.toNat)
    (hfit : p.toNat + size.toNat ≤ gapStop h.heapEnd.toNat ys)
    (hend : p.toNat < h.heapEnd.toNat) (hs : SameBounds h h')
    (hfirst : h'.firstAddress = if xs = [] then p else h.firstAddress)
    (hsize : ∀ q ∈ addrs (xs ++ ⟨p, size⟩ :: ys),
      h'.field .size q = if q = p then size else h.field .size q)
    (hprev : ∀ q ∈ addrs (xs ++ ⟨p, size⟩ :: ys), h'.field .previous q =
      if q = p then lastAddr xs else if q = headAddr ys then p else h.field .previous q)
    (hnext : ∀ q ∈ addrs (xs ++ ⟨p, size⟩ :: ys), h'.field .next q =
      if q = p then headAddr ys else if q = lastAddr xs then p else h.field .next q) :
    WellFormed h' (xs ++ ⟨p, size⟩ :: ys) := by
  rcases hw.insert_order hfree hfit hend with ⟨hsorted, hinside⟩
  rw [addrs_append, addrs_cons] at hsize hprev hnext
  have hnd := hw.nodup
  have hne := ne_neighbour hnd fun a ha => hw.ne_zero (by rwa [addrs_append])
  -- an old block is still in the list and is not the new one
  have hold : ∀ a ∈ addrs xs ++ addrs ys, a ∈ addrs xs ++ p :: addrs ys ∧ a ≠ p := by
    intro a ha
    have hnew := nodup_addrs hsorted
    rw [addrs_append, addrs_cons, List.nodup_middle, List.nodup_cons] at hnew
    exact ⟨(List.perm_middle.mem_iff).mpr (List.mem_cons_of_mem _ ha),
      fun e => hnew.1 (e ▸ ha)⟩
  have hwn := hw.next
  have hwp := hw.previous
  rw [addrs_append] at hwn hwp
  refine hw.of_fields hs ?_ ?_ ?_ ?_ hsorted hinside
  · rw [hfirst]
    cases xs with
    | nil => rfl
    | cons x xs => simpa [headAddr] using hw.first
  · intro b hb
    rcases List.mem_cons.mp (List.perm_middle.mem_iff.mp hb) with rfl | hb
    · rw [hsize p (by simp), if_pos rfl]
    · have hb' := hold b.addr (by simpa using mem_addrs hb)
      rw [hsize _ hb'.1, if_neg hb'.2]
      exact hw.size b hb
  · -- along next: only the last block before the gap is redirected
    rw [addrs_append, addrs_cons]
    refine hwn.insert (fun a ha => ?_) (fun a ha => ?_) ?_ (fun a ha => ?_)
    · rcases hold a (List.mem_append_left _ (List.dropLast_subset _ ha)) with ⟨h1, h2⟩
      rw [hnext a h1, if_neg h2, if_neg (ne_lastAddr_of_mem_dropLast hnd.of_append_left ha)]
    · rcases hold a (List.mem_append_left _ (List.mem_of_mem_getLast? ha)) with ⟨h1, h2⟩
      rw [hnext a h1, if_neg h2, if_pos (eq_lastAddr_of_mem_getLast? ha)]
    · rw [hnext p (by simp), if_pos rfl]
      rfl
    · rcases hold a (List.mem_append_right _ ha) with ⟨h1, h2⟩
      rw [hnext a h1, if_neg h2, if_neg (hne.2 a ha)]
  · -- along previous: only the first block after the gap is redirected
    rw [addrs_append, addrs_cons]
    refine hwp.insert (fun a ha => ?_) ?_ (fun a ha => ?_) (fun a ha => ?_)
    · rcases hold a (List.mem_append_left _ ha) with ⟨h1, h2⟩
      rw [hprev a h1, if_neg h2, if_neg (hne.1 a ha)]
    · rw [hprev p (by simp), if_pos rfl]
      rfl
    · rcases hold a (List.mem_append_right _ (List.mem_of_mem_head? ha)) with ⟨h1, h2⟩
      rw [hprev a h1, if_neg h2, if_pos (eq_headAddr_of_mem_head? ha)]
    · rcases hold a (List.mem_append_right _ (List.mem_of_mem_tail ha)) with ⟨h1, h2⟩
      rw [hprev a h1, if_neg h2, if_neg (ne_headAddr_of_mem_tail hnd.of_append_right ha)]

/-- **Unlinking.** The new headers say: the neighbours of `b` point at each
other, the rest is as before. -/
theorem remove (hw : WellFormed h (xs ++ b :: ys)) (hs : SameBounds h h')
    (hfirst : h'.firstAddress = if xs = [] then headAddr ys else h.firstAddress)
    (hsize : ∀ q ∈ addrs (xs ++ ys), h'.field .size q = h.field .size q)
    (hprev : ∀ q ∈ addrs (xs ++ ys), h'.field .previous q =
      if q = headAddr ys then lastAddr xs else h.field .previous q)
    (hnext : ∀ q ∈ addrs (xs ++ ys), h'.field .next q =
      if q = lastAddr xs then headAddr ys else h.field .next q) :
    WellFormed h' (xs ++ ys) := by
  have hsub : (xs ++ ys).Sublist (xs ++ b :: ys) :=
    (List.Sublist.refl xs).append (List.sublist_cons_self b ys)
  have hnd : (addrs xs ++ addrs ys).Nodup := by
    have := nodup_addrs (hw.sorted.sublist hsub)
    rwa [addrs_append] at this
  have hne := ne_neighbour hnd fun a ha => hw.ne_zero <| by
    rw [← addrs_append] at ha
    exact (hsub.map Block.addr).subset ha
  rw [addrs_append] at hprev hnext
  have hwn := hw.next
  have hwp := hw.previous
  rw [addrs_append, addrs_cons] at hwn hwp
  refine hw.of_fields hs ?_ (fun b hb => ?_) ?_ ?_ (hw.sorted.sublist hsub)
    fun b hb => hw.inside b (hsub.subset hb)
  · rw [hfirst]
    cases xs with
    | nil => rfl
    | cons x xs => simpa [headAddr] using hw.first
  · rw [hsize _ (mem_addrs hb)]
    exact hw.size b (hsub.subset hb)
  · rw [addrs_append]
    -- forwards only the block before is relinked, backwards only the one after
    refine hwn.remove (fun a ha => ?_) (fun a ha => ?_) fun a ha => ?_
    · rw [hnext a (List.mem_append_left _ (List.dropLast_subset _ ha)),
        if_neg (ne_lastAddr_of_mem_dropLast hnd.of_append_left ha)]
    · rw [hnext a (List.mem_append_left _ (List.mem_of_mem_getLast? ha)),
        if_pos (eq_lastAddr_of_mem_getLast? ha)]
      rfl
    · rw [hnext a (List.mem_append_right _ ha), if_neg (hne.2 a ha)]
  · rw [addrs_append]
    refine hwp.remove (fun a ha => ?_) (fun a ha => ?_) fun a ha => ?_
    · rw [hprev a (List.mem_append_left _ ha), if_neg (hne.1 a ha)]
    · rw [hprev a (List.mem_append_right _ (List.mem_of_mem_head? ha)),
        if_pos (eq_headAddr_of_mem_head? ha)]
      rfl
    · rw [hprev a (List.mem_append_right _ (List.mem_of_mem_tail ha)),
        if_neg (ne_headAddr_of_mem_tail hnd.of_append_right ha)]

/-- **Resizing in place.** Only the size of one block changes, and the payload
still ends before the next header. -/
theorem resize (hw : WellFormed h (xs ++ b :: ys)) {n : UDword}
    (hfit : b.addr.toNat + n.toNat ≤ gapStop h.heapEnd.toNat ys) (hs : SameBounds h h')
    (hfirst : h'.firstAddress = h.firstAddress)
    (hsize : ∀ q ∈ addrs (xs ++ b :: ys),
      h'.field .size q = if q = b.addr then n else h.field .size q)
    (hprev : ∀ q ∈ addrs (xs ++ b :: ys), h'.field .previous q = h.field .previous q)
    (hnext : ∀ q ∈ addrs (xs ++ b :: ys), h'.field .next q = h.field .next q) :
    WellFormed h' (xs ++ ⟨b.addr, n⟩ :: ys) := by
  have haddrs : addrs (xs ++ ⟨b.addr, n⟩ :: ys) = addrs (xs ++ b :: ys) := by simp
  have hb := hw.inside b (by simp)
  rcases List.pairwise_append.mp hw.sorted with ⟨hsx, hsby, hsxy⟩
  rcases List.pairwise_cons.mp hsby with ⟨hby, hsy⟩
  -- the next block starts no earlier than the new end
  have hafter : ∀ c ∈ ys, (⟨b.addr, n⟩ : Block).Before c := by
    intro c hc
    have := gapStop_le h.heapEnd.toNat hsy hc fun c hc => by
      have := (hw.inside c (by simp [hc])).1
      omega
    unfold Block.Before Block.stop
    simp only
    omega
  refine hw.of_fields hs ?_ (fun c hc => ?_) ?_ ?_ ?_ fun c hc => ?_
  · rw [hfirst, headAddr, haddrs]
    exact hw.first
  · rw [hsize _ (haddrs ▸ mem_addrs hc)]
    rcases List.mem_cons.mp (List.perm_middle.mem_iff.mp hc) with rfl | hc
    · rw [if_pos rfl]
    · have hnd := nodup_addrs hw.sorted
      rw [addrs_append, addrs_cons, List.nodup_middle, List.nodup_cons, ← addrs_append] at hnd
      rw [if_neg fun e : c.addr = b.addr => hnd.1 (e ▸ mem_addrs hc)]
      exact hw.size c (List.perm_middle.mem_iff.mpr (List.mem_cons_of_mem _ hc))
  · rw [haddrs]
    exact hw.next.congr hnext
  · rw [haddrs]
    exact hw.previous.congr hprev
  · rw [List.pairwise_append]
    refine ⟨hsx, List.pairwise_cons.mpr ⟨hafter, hsy⟩, fun a ha c hc => ?_⟩
    rcases List.mem_cons.mp hc with rfl | hc
    · exact hsxy a ha b (by simp)
    · exact hsxy a ha c (by simp [hc])
  · rcases List.mem_cons.mp (List.perm_middle.mem_iff.mp hc) with rfl | hc
    · have hhi : gapStop h.heapEnd.toNat ys ≤ h.heapEnd.toNat := by
        cases ys with
        | nil => exact le_refl _
        | cons c ys =>
          have := (hw.inside c (by simp)).2.2
          rw [gapStop_cons]
          omega
      exact ⟨hb.1, by unfold Block.stop; simp only; omega, hb.2.2⟩
    · exact hw.inside c (List.perm_middle.mem_iff.mpr (List.mem_cons_of_mem _ hc))

end WellFormed

end MushOS
