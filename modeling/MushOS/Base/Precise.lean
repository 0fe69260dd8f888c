import MushOS.Theory.Decimal
import MushOS.Base.Format
import MushOS.Base.HeapRoom

/-! # float_to_string: a decimal fraction

With exact arithmetic `float_to_string` gets the two numbers right, but the strings of
`int_to_string` are not the digits: zero has none, and one byte of its string is whatever has
been there; and a fraction that begins with zeros loses them. So the result is the number,
truncated, just when it has an integer part and a fraction of a tenth or more
(`floatDenotes_iff`).

To see that it is wrong otherwise, the allocations are followed in a heap with room
(`joinParts_run`): the first block is at the start, on bytes nothing has written; the
fraction of a number like `7.0` goes where the integer part has been, and shows its first
digit.
-/

namespace MushOS

open Attempts ByteMemory Numeral

/-! ## Runs of the functions -/

section Runs
variable {S : Finset Block} {h h' h₁ : Heap} {p q r size : UDword} {b : Block}
  {text text' : List UByte} {sys : NumberSystem}

theorem len_run (hr : Readable S h p text) : (len p).run h = .ok (text.length, h) := by
  have hlt := hr.length_lt
  have hread : (reads fun m => lenLoop p m intRange 0).run h =
      .ok (lenLoop p h.mem intRange 0, h) := rfl
  unfold len
  rw [run_bind_of_ok hread, lenLoop_eq hr.chars (Nat.zero_le _) (by omega)]
  rfl

theorem release_run (hl : Live h S) (hb : b ∈ S) :
    ∃ h', (release b.addr).run h = .ok ((), h') ∧ Live h' (S.erase b) ∧ Preserves S h h' := by
  rcases hl.unalloc hb with ⟨h', heq, hl', hp⟩
  refine ⟨h', ?_, hl', hp⟩
  show (MushOS.unalloc b.addr h >>= fun h => Except.ok ((), h)) = _
  rw [heq]
  rfl

/-- A string in the new block. -/
theorem concatenate_run (hp : Readable S h p text) (hq : Readable S h q text')
    (hwrap : text.length + text'.length + 13 < 2 ^ 32)
    (hralloc : MushOS.ralloc (BitVec.ofNat 32 (text.length + text'.length + 1)) h = .ok (r, h₁))
    (hgot : Obtains S h (BitVec.ofNat 32 (text.length + text'.length + 1)) r h₁) :
    ∃ h', (concatenate p q).run h = .ok (r, h') ∧
      Obtains S h (BitVec.ofNat 32 (text.length + text'.length + 1)) r h' ∧
      Chars h'.mem r (text ++ text') := by
  have hsize : (BitVec.ofNat 32 (text.length + text'.length + 1)).toNat =
      text.length + text'.length + 1 := toNat_ofNat_of_lt (by omega)
  rcases hgot.joined hp hq hsize with ⟨hjoined, hchars⟩
  have hralloc' : (show HeapM UDword from
      MushOS.ralloc (BitVec.ofNat 32 (text.length + text'.length + 1))).run h = .ok (r, h₁) :=
    hralloc
  unfold concatenate
  rw [run_bind_of_ok (len_run hp), run_bind_of_ok (len_run hq), run_bind_of_ok hralloc']
  exact ⟨_, rfl, hjoined, hchars⟩

/-- What `int_to_string` has of zero: the byte it finds in the block. -/
def FoundByte (m : Mem) (p b : UDword) (text : List UByte) : Prop :=
  b = 0 → text.head?.getD 0 = m.bytes p

/-- Digits in the new block. -/
theorem intToString_run (hb : IsBase sys) (b : UDword)
    (hralloc : MushOS.ralloc (BitVec.ofNat 32 (room sys b) + 1) h = .ok (r, h₁))
    (hgot : Obtains S h (BitVec.ofNat 32 (room sys b) + 1) r h₁) :
    ∃ h' text, (intToString b sys).run h = .ok (r, h') ∧
      Obtains S h (BitVec.ofNat 32 (room sys b) + 1) r h' ∧ Chars h'.mem r text ∧
      text.length ≤ room sys b ∧ IntText sys.toNat b.toNat text ∧ FoundByte h₁.mem r b text := by
  have hroom := room_le hb b
  have hsize : (BitVec.ofNat 32 (room sys b) + 1).toNat = room sys b + 1 := by
    bv_omega
  have hfit := hgot.live.payload_lt (Finset.mem_insert_self _ _)
  dsimp only at hfit
  rw [hsize] at hfit
  rcases digitLoop_chars hb r b h₁.mem (by omega) with ⟨m', text, heq, hw, hchars, hlength, htext⟩
  have hpower : (ended (powerLoop b sys digitTurns (sys.setWidth 64) 1)).run h =
      .ok (BitVec.ofNat 32 (room sys b), h) := by
    rw [powerLoop_room hb]
    rfl
  have hralloc' : (show HeapM UDword from
      MushOS.ralloc (BitVec.ofNat 32 (room sys b) + 1)).run h = .ok (r, h₁) := hralloc
  refine ⟨{ h₁ with mem := m' }, text, ?_, hgot.write ?_, hchars, hlength, htext, ?_⟩
  · unfold intToString
    rw [run_bind_of_ok hpower, run_bind_of_ok hralloc']
    have hset : (setChar r (BitVec.ofNat 32 (room sys b)) 0).run h₁ =
        .ok ((), { h₁ with mem := h₁.mem.write8 (r + BitVec.ofNat 32 (room sys b)) 0 }) := rfl
    have hread : ∀ g : Heap, (reads (digitLoop r sys digitTurns b
        (BitVec.ofNat 32 (room sys b)))).run g =
          .ok (digitLoop r sys digitTurns b (BitVec.ofNat 32 (room sys b)) g.mem, g) :=
      fun _ => rfl
    rw [run_bind_of_ok hset, run_bind_of_ok (hread _), heq]
    rfl
  · unfold Block.payload
    rw [hsize]
    exact hw
  · -- for zero the loop does not write
    rintro rfl
    have hloop : digitLoop r sys digitTurns 0 (BitVec.ofNat 32 (room sys 0))
        (h₁.mem.write8 (r + BitVec.ofNat 32 (room sys 0)) 0) =
          some (h₁.mem.write8 (r + BitVec.ofNat 32 (room sys 0)) 0) := by
      unfold digitTurns digitLoop
      rw [if_neg (not_not.mpr rfl)]
    rw [hloop, room_zero] at heq
    have hm' := Option.some.inj heq
    have hne : r ≠ r + BitVec.ofNat 32 1 := by
      bv_omega
    have hfirst := hchars.bytes 0 (Nat.zero_le _)
    rw [BitVec.add_zero, ← hm', Mem.write8_bytes_ne _ _ hne] at hfirst
    rw [hfirst]
    cases text <;> rfl

/-- A string in one of the blocks. -/
theorem readable_of_chars (hl : Live h S) (hmem : (⟨p, size⟩ : Block) ∈ S)
    (hc : Chars h.mem p text) (hlt : text.length < size.toNat) (hrange : text.length < intRange) :
    Readable S h p text := by
  refine ⟨hc, fun i hi => Or.inr ⟨_, hmem, ?_⟩, hrange⟩
  exact hl.mem_payload hmem (show i < size.toNat by omega)

theorem Chars.preserved (hc : Chars h.mem p text) (hp : Preserves S h h') (hl : Live h S)
    (hmem : (⟨p, size⟩ : Block) ∈ S) (hlt : text.length < size.toNat) : Chars h'.mem p text := by
  refine hc.congr fun i hi => hp.bytes _ (Or.inr ⟨_, hmem, ?_⟩)
  exact hl.mem_payload hmem (show i < size.toNat by omega)

end Runs

/-! ## A run with room -/

/-- The blocks end below a limit, in a heap with the bounds of `g`. -/
structure Below (g : Heap) (limit : ℕ) (S : Finset Block) (h : Heap) : Prop where
  live : Live h S
  bounds : SameBounds g h
  below : ∀ b ∈ S, b.stop ≤ limit

section Room
variable {g h h' h₁ : Heap} {limit : ℕ} {S : Finset Block} {b : Block} {p q r size : UDword}
  {text text' : List UByte}

theorem Below.obtains (hbelow : Below g limit S h) (hgot : Obtains S h size p h')
    (hp : p.toNat ≤ limit + 12) : Below g (limit + 12 + size.toNat) (insert ⟨p, size⟩ S) h' := by
  refine ⟨hgot.live, hbelow.bounds.trans hgot.preserves.bounds, fun b hb => ?_⟩
  rcases Finset.mem_insert.mp hb with rfl | hb
  · unfold Block.stop
    dsimp only
    omega
  · have hstop := hbelow.below b hb
    omega

theorem Below.ralloc (hbelow : Below g limit S h) (hne : S.Nonempty)
    (hstart : g.heapStart.toNat ≤ limit) (hroom : limit + size.toNat + 24 ≤ g.heapEnd.toNat) :
    ∃ p h', MushOS.ralloc size h = .ok (p, h') ∧ ObtainsAsIs S h size p h' ∧
      p.toNat ≤ limit + 12 := by
  have hb := hbelow.bounds
  refine hbelow.live.ralloc_roomy hne ?_ hbelow.below ?_
  · rw [hb.heapStart]
    exact hstart
  · rw [hb.heapEnd]
    exact hroom

theorem Below.release (hbelow : Below g limit S h) (hmem : b ∈ S) :
    ∃ h', (release b.addr).run h = .ok ((), h') ∧ Below g limit (S.erase b) h' ∧
      Preserves S h h' := by
  rcases release_run hbelow.live hmem with ⟨h', hrun, hl, hp⟩
  exact ⟨h', hrun, ⟨hl, hbelow.bounds.trans hp.bounds,
    fun c hc => hbelow.below c (Finset.mem_of_mem_erase hc)⟩, hp⟩

/-- A block is taken, and the only other one is released. -/
theorem Below.exchange (hbelow : Below g limit {b} h) (hgot : Obtains {b} h size p h')
    (hp : p.toNat ≤ limit + 12) :
    ∃ h'', (MushOS.release b.addr).run h' = .ok ((), h'') ∧
      Below g (limit + 12 + size.toNat) {⟨p, size⟩} h'' ∧ Preserves {⟨p, size⟩, b} h' h'' := by
  have hmem := Finset.mem_singleton_self b
  have hfresh := hgot.fresh b hmem
  have hboth := hbelow.obtains hgot hp
  have hne : (⟨p, size⟩ : Block) ≠ b := by
    rintro rfl
    exact hfresh rfl
  have herase : Finset.erase {⟨p, size⟩, b} b = ({⟨p, size⟩} : Finset Block) := by
    rw [Finset.erase_insert_of_ne hne, Finset.erase_singleton]
    rfl
  rcases hboth.release (Finset.mem_insert_of_mem hmem) with ⟨h'', hrun, hbelow', hpres⟩
  rw [herase] at hbelow'
  exact ⟨h'', hrun, hbelow', hpres⟩

/-- The other blocks come after the first one. -/
theorem Live.above_first {c : Block} (hl : Live h S) (hb : b ∈ S) (hc : c ∈ S)
    (hfirst : b.addr.toNat = h.heapStart.toNat + 12) (hne : b.addr ≠ c.addr) :
    b.stop + 12 ≤ c.addr.toNat := by
  rcases hl.sorted hb hc with rfl | hbefore | hbefore
  · exact absurd rfl hne
  · exact hbefore
  · have hlow := (hl.bounds hc).1
    unfold Block.Before Block.stop at hbefore
    omega

theorem Below.mono {limit' : ℕ} (hbelow : Below g limit S h) (hle : limit ≤ limit') :
    Below g limit' S h :=
  ⟨hbelow.live, hbelow.bounds, fun b hb => (hbelow.below b hb).trans hle⟩

/-- `concatenate`, with room for the new string. -/
theorem Below.concatenate (hbelow : Below g limit S h) (hne : S.Nonempty)
    (hp : Readable S h p text) (hq : Readable S h q text')
    (hstart : g.heapStart.toNat ≤ limit) (hshort : text.length + text'.length ≤ 100)
    (hroom : limit + 200 ≤ g.heapEnd.toNat) :
    ∃ r h', (concatenate p q).run h = .ok (r, h') ∧
      Obtains S h (BitVec.ofNat 32 (text.length + text'.length + 1)) r h' ∧
      Chars h'.mem r (text ++ text') ∧ r.toNat ≤ limit + 12 := by
  have hsize : (BitVec.ofNat 32 (text.length + text'.length + 1)).toNat =
      text.length + text'.length + 1 := toNat_ofNat_of_lt (by omega)
  rcases hbelow.ralloc hne hstart (by rw [hsize]; omega) with ⟨r, h₁, hralloc, hgot, hr⟩
  rcases concatenate_run hp hq (by omega) hralloc hgot.toObtains with ⟨h', hrun, hgot', hchars⟩
  exact ⟨r, h', hrun, hgot', hchars, hr⟩

/-- The integer part, and what the bytes before it have been. -/
theorem intToString_first (hl : Live g ∅) (hroom : g.heapStart.toNat + 100 ≤ g.heapEnd.toNat)
    (whole : UDword) : ∃ h text, (intToString whole decimal).run g = .ok (g.heapStart + 12, h) ∧
      Below g (g.heapStart.toNat + 45)
          {⟨g.heapStart + 12, BitVec.ofNat 32 (room decimal whole) + 1⟩} h ∧
      Preserves ∅ g h ∧ Chars h.mem (g.heapStart + 12) text ∧ text.length ≤ room decimal whole ∧
      IntText 10 whole.toNat text ∧ FoundByte g.mem (g.heapStart + 12) whole text := by
  have hle := room_le isBase_decimal whole
  have hsize : (BitVec.ofNat 32 (room decimal whole) + 1).toNat = room decimal whole + 1 := by
    bv_omega
  have hend := g.heapEnd.isLt
  have hp : (g.heapStart + 12).toNat = g.heapStart.toNat + 12 :=
    BitVec.toNat_add_of_lt (by simp; omega)
  rcases hl.ralloc_first (by rw [hsize]; omega) with ⟨h₁, hralloc, hgot⟩
  rcases intToString_run isBase_decimal whole hralloc hgot.toObtains with
    ⟨h, text, hrun, hgot', hchars, hlength, htext, hfound⟩
  refine ⟨h, text, hrun, ⟨hgot'.live, hgot'.preserves.bounds, ?_⟩, hgot'.preserves, hchars,
    hlength, htext, fun h0 => ?_⟩
  · intro b hb
    rw [Finset.mem_singleton.mp hb]
    unfold Block.stop
    dsimp only
    omega
  · rw [hfound h0]
    refine hgot.asIs _ ?_
    unfold Block.payload
    rw [mem_span]
    dsimp only
    omega

/-- The fraction goes where the integer part has been, if it has no digit. -/
theorem intToString_zero (hbelow : Below g limit {b} h)
    (hfits : g.heapStart.toNat + 26 ≤ b.addr.toNat)
    (hroom : 2 * limit + 26 ≤ g.heapEnd.toNat + g.heapStart.toNat) :
    ∃ h' text, (intToString 0 decimal).run h = .ok (g.heapStart + 12, h') ∧
      Obtains {b} h (BitVec.ofNat 32 (room decimal 0) + 1) (g.heapStart + 12) h' ∧
      Chars h'.mem (g.heapStart + 12) text ∧ text.length ≤ room decimal 0 ∧
      IntText 10 (0 : UDword).toNat text ∧ FoundByte h.mem (g.heapStart + 12) 0 text := by
  have hb := hbelow.below b (Finset.mem_singleton_self b)
  have hsize : (BitVec.ofNat 32 (room decimal 0) + 1).toNat = 2 := by
    rw [room_zero]
    rfl
  have hend := g.heapEnd.isLt
  have hlow : b.addr.toNat ≤ b.stop := Nat.le_add_right _ _
  have hp : (g.heapStart + 12).toNat = g.heapStart.toNat + 12 :=
    BitVec.toNat_add_of_lt (by simp; omega)
  have hfront := @Live.ralloc_front h b (BitVec.ofNat 32 (room decimal 0) + 1) hbelow.live
  rw [hsize, hbelow.bounds.heapStart, hbelow.bounds.heapEnd] at hfront
  rcases hfront (by omega) (by omega) (by omega) with ⟨h₁, hralloc, hgot⟩
  rcases intToString_run isBase_decimal 0 hralloc hgot.toObtains with
    ⟨h', text, hrun, hgot', hchars, hlength, htext, hfound⟩
  refine ⟨h', text, hrun, hgot', hchars, hlength, htext, fun h0 => ?_⟩
  rw [hfound h0]
  refine hgot.asIs _ ?_
  unfold Block.payload
  rw [mem_span]
  dsimp only
  omega

/-- The fraction, wherever it goes. -/
theorem intToString_next (hbelow : Below g limit S h) (hne : S.Nonempty)
    (hstart : g.heapStart.toNat ≤ limit) (hroom : limit + 57 ≤ g.heapEnd.toNat) (b : UDword) :
    ∃ p h' text, (intToString b decimal).run h = .ok (p, h') ∧
      Obtains S h (BitVec.ofNat 32 (room decimal b) + 1) p h' ∧ Chars h'.mem p text ∧
      text.length ≤ room decimal b ∧ IntText 10 b.toNat text ∧ p.toNat ≤ limit + 12 := by
  have hle := room_le isBase_decimal b
  have hsize : (BitVec.ofNat 32 (room decimal b) + 1).toNat = room decimal b + 1 := by
    bv_omega
  rcases hbelow.ralloc hne hstart (by rw [hsize]; omega) with ⟨p, h₁, hralloc, hgot, hp⟩
  rcases intToString_run isBase_decimal b hralloc hgot.toObtains with
    ⟨h', text, hrun, hgot', hchars, hlength, htext, -⟩
  exact ⟨p, h', text, hrun, hgot', hchars, hlength, htext, hp⟩

/-- The fraction of a number that has an integer part: if there is no digit in it, what is
read is the first digit of the integer part, which has been there. -/
theorem fraction_run {whole : UDword} (hbelow : Below g limit {b} h)
    (hfits : g.heapStart.toNat + 26 ≤ b.addr.toNat) (hstart : g.heapStart.toNat ≤ limit)
    (hroom : 2 * limit + 57 ≤ g.heapEnd.toNat + g.heapStart.toNat)
    (hfirst : h.mem.bytes (g.heapStart + 12) = text.getD 0 0)
    (htext : IntText 10 whole.toNat text) (floating : UDword) :
    ∃ p h' text', (intToString floating decimal).run h = .ok (p, h') ∧
      Obtains {b} h (BitVec.ofNat 32 (room decimal floating) + 1) p h' ∧ Chars h'.mem p text' ∧
      text'.length ≤ room decimal floating ∧ IntText 10 floating.toNat text' ∧
      p.toNat ≤ limit + 12 ∧ (whole ≠ 0 → floating = 0 → text' ≠ ascii "0") := by
  by_cases hzero : floating = 0
  · subst hzero
    rcases intToString_zero hbelow hfits (by omega) with
      ⟨h', text', hrun, hgot, hchars, hlength, htext', hfound⟩
    have hp : (g.heapStart + 12).toNat ≤ limit + 12 := by
      have hend := g.heapEnd.isLt
      rw [BitVec.toNat_add_of_lt (by simp; omega)]
      exact Nat.add_le_add_right hstart 12
    refine ⟨_, h', text', hrun, hgot, hchars, hlength, htext', hp, ?_⟩
    rintro hwhole - rfl
    have hne : whole.toNat ≠ 0 := fun h0 => hwhole (BitVec.eq_of_toNat_eq h0)
    have hhead := hfound rfl
    rw [hfirst, htext.1 hne] at hhead
    -- a numeral has no zero in front
    rcases List.exists_cons_of_length_pos (length_numeral_pos (r := 10) (by decide) hne) with
      ⟨c, rest, hcons⟩
    refine head_numeral (r := 10) (by decide) (by decide) whole.toNat ?_
    rw [hcons] at hhead ⊢
    exact congrArg some hhead.symm
  · have hlimit : limit + 57 ≤ g.heapEnd.toNat := by omega
    rcases intToString_next hbelow (Finset.singleton_nonempty b) hstart hlimit floating with
      ⟨p, h', text', hrun, hgot, hchars, hlength, htext', hp⟩
    exact ⟨p, h', text', hrun, hgot, hchars, hlength, htext', hp, fun _ h0 => absurd h0 hzero⟩

/-- The integer part with the point. The bytes of the integer part are still there. -/
theorem whole_run {dot : UDword} (hl : Live g ∅)
    (hroom : g.heapStart.toNat + 500 ≤ g.heapEnd.toNat) (hdot : Readable ∅ g dot (ascii "."))
    (whole : UDword) :
    ∃ h₁ p h₂ h₃ size text, (intToString whole decimal).run g = .ok (g.heapStart + 12, h₁) ∧
      (MushOS.concatenate (g.heapStart + 12) dot).run h₁ = .ok (p, h₂) ∧
      (MushOS.release (g.heapStart + 12)).run h₂ = .ok ((), h₃) ∧
      Below g (g.heapStart.toNat + 91) {⟨p, size⟩} h₃ ∧ Chars h₃.mem p (text ++ ascii ".") ∧
      text.length + 1 < size.toNat ∧ text.length ≤ 32 ∧ IntText 10 whole.toNat text ∧
      FoundByte g.mem (g.heapStart + 12) whole text ∧ g.heapStart.toNat + 26 ≤ p.toNat ∧
      h₃.mem.bytes (g.heapStart + 12) = text.getD 0 0 := by
  have hone : (ascii ".").length = 1 := by decide
  have hle := room_le isBase_decimal whole
  have hge : 1 ≤ room decimal whole := Nat.le_max_left _ _
  rcases intToString_first hl (by omega) whole with
    ⟨h₁, text, hrun₁, hbelow₁, hpres₁, hchars₁, hlength, htext, hfound⟩
  have hsize₁ : (BitVec.ofNat 32 (room decimal whole) + 1).toNat = room decimal whole + 1 := by
    bv_omega
  obtain ⟨b₁, hb₁⟩ : ∃ b₁ : Block,
      b₁ = ⟨g.heapStart + 12, BitVec.ofNat 32 (room decimal whole) + 1⟩ :=
    ⟨_, rfl⟩
  have haddr₁ : b₁.addr = g.heapStart + 12 := by rw [hb₁]
  have hroom₁ : b₁.size.toNat = room decimal whole + 1 := by rw [hb₁, hsize₁]
  rw [← hb₁] at hbelow₁
  rw [← haddr₁] at hrun₁ hchars₁
  have hmem₁ : b₁ ∈ ({b₁} : Finset Block) := Finset.mem_singleton_self b₁
  have hread₁ : Readable {b₁} h₁ b₁.addr text := by
    refine readable_of_chars hbelow₁.live hmem₁ hchars₁ (by omega) ?_
    unfold intRange
    omega
  rcases hbelow₁.concatenate (Finset.singleton_nonempty b₁) hread₁
    ((hdot.preserved hpres₁).mono (Finset.empty_subset _)) (by omega) (by omega) (by omega)
    with ⟨p, h₂, hrun₂, hgot₂, hchars₂, hp⟩
  rw [hone] at hgot₂
  have hsize₂ : (BitVec.ofNat 32 (text.length + 1 + 1)).toNat = text.length + 1 + 1 :=
    toNat_ofNat_of_lt (by omega)
  have hfresh : b₁.addr ≠ p := hgot₂.fresh b₁ hmem₁
  have hstart : b₁.addr.toNat = h₂.heapStart.toNat + 12 := by
    have hend := g.heapEnd.isLt
    rw [haddr₁, hgot₂.preserves.bounds.heapStart, hbelow₁.bounds.heapStart]
    exact BitVec.toNat_add_of_lt (by simp; omega)
  have hin₁ := Finset.mem_insert_of_mem (b := ⟨p, BitVec.ofNat 32 (text.length + 1 + 1)⟩) hmem₁
  have hin₂ := Finset.mem_insert_self (⟨p, BitVec.ofNat 32 (text.length + 1 + 1)⟩ : Block) {b₁}
  -- the digits stay in the first block, so the joined text lies above it
  have habove := hgot₂.live.above_first hin₁ hin₂ hstart hfresh
  rcases hbelow₁.exchange hgot₂ hp with ⟨h₃, hrun₃, hbelow₃, hpres₃⟩
  have hchars₃ : Chars h₃.mem p (text ++ ascii ".") := by
    refine hchars₂.preserved hpres₃ hgot₂.live hin₂ ?_
    rw [List.length_append, hone, hsize₂]
    exact Nat.lt_succ_self _
  -- releasing a block leaves its bytes as they are
  have hkept : h₃.mem.bytes b₁.addr = text.getD 0 0 := by
    have hpayload : b₁.addr ∈ b₁.payload := by
      have hbyte := hbelow₁.live.mem_payload hmem₁ (show 0 < b₁.size.toNat by omega)
      rwa [BitVec.add_zero] at hbyte
    have hbyte := hchars₁.bytes 0 (Nat.zero_le _)
    rw [BitVec.add_zero] at hbyte
    rw [hpres₃.bytes _ (Or.inr ⟨b₁, hin₁, hpayload⟩),
      hgot₂.preserves.bytes _ (Or.inr ⟨b₁, hmem₁, hpayload⟩), hbyte]
  have hlimit : Below g (g.heapStart.toNat + 91) {⟨p, BitVec.ofNat 32 (text.length + 1 + 1)⟩} h₃ :=
    hbelow₃.mono (by rw [hsize₂]; omega)
  have hp26 : g.heapStart.toNat + 26 ≤ p.toNat := by
    rw [hgot₂.preserves.bounds.heapStart, hbelow₁.bounds.heapStart] at hstart
    unfold Block.stop at habove
    dsimp only at habove
    omega
  have hlt : text.length + 1 < (BitVec.ofNat 32 (text.length + 1 + 1)).toNat := by
    rw [hsize₂]
    exact Nat.lt_succ_self _
  rw [haddr₁] at hrun₁ hrun₂ hrun₃ hkept
  exact ⟨h₁, p, h₂, h₃, _, text, hrun₁, hrun₂, hrun₃, hlimit, hchars₃, hlt, by omega, htext,
    hfound, hp26, hkept⟩

/-- What `float_to_string` puts together, on an empty heap with room. -/
theorem joinParts_run {literals : Literals} (hl : Live g ∅)
    (hroom : g.heapStart.toNat + 500 ≤ g.heapEnd.toNat) (hplaced : literals.Placed ∅ g)
    (whole floating : UDword) :
    ∃ q h text₁ text₂, (joinParts literals whole floating).run g = .ok (q, h) ∧
      Chars h.mem q (text₁ ++ ascii "." ++ text₂) ∧ IntText 10 whole.toNat text₁ ∧
      IntText 10 floating.toNat text₂ ∧ FoundByte g.mem (g.heapStart + 12) whole text₁ ∧
      (whole ≠ 0 → floating = 0 → text₂ ≠ ascii "0") := by
  have hone : (ascii ".").length = 1 := by decide
  have hle := room_le isBase_decimal floating
  rcases whole_run hl hroom hplaced.dot whole with ⟨h₁, p₂, h₂, h₃, size₂, text₁, hrun₁, hrun₂,
    hrun₃, hbelow₃, hchars₃, hfits₂, hlength₁, htext₁, hfound, hp26, hkept⟩
  have hmem₂ := Finset.mem_singleton_self (⟨p₂, size₂⟩ : Block)
  -- the fraction
  rcases fraction_run hbelow₃ hp26 (by omega) (by omega) hkept htext₁ floating with
    ⟨p₃, h₄, text₂, hrun₄, hgot₄, hchars₄, hlength₂, htext₂, hp₃, hzero⟩
  have hsize₃ :
      (BitVec.ofNat 32 (room decimal floating) + 1).toNat = room decimal floating + 1 := by
    bv_omega
  generalize BitVec.ofNat 32 (room decimal floating) + 1 = size₃ at hgot₄ hsize₃
  have hbelow₄ := (hbelow₃.obtains hgot₄ hp₃).mono
    (show _ ≤ g.heapStart.toNat + 136 by rw [hsize₃]; omega)
  have hin₂ := Finset.mem_insert_of_mem (b := ⟨p₃, size₃⟩) hmem₂
  have hin₃ := Finset.mem_insert_self (⟨p₃, size₃⟩ : Block) {⟨p₂, size₂⟩}
  have hfits₂' : (text₁ ++ ascii ".").length < size₂.toNat := by
    rw [List.length_append, hone]
    exact hfits₂
  have hchars₂ : Chars h₄.mem p₂ (text₁ ++ ascii ".") :=
    hchars₃.preserved hgot₄.preserves hbelow₃.live hmem₂ hfits₂'
  have hshort : (text₁ ++ ascii ".").length + text₂.length ≤ 100 := by
    rw [List.length_append, hone]
    omega
  have hread₂ : Readable {⟨p₃, size₃⟩, ⟨p₂, size₂⟩} h₄ p₂ (text₁ ++ ascii ".") := by
    refine readable_of_chars hbelow₄.live hin₂ hchars₂ hfits₂' ?_
    unfold intRange
    omega
  have hread₃ : Readable {⟨p₃, size₃⟩, ⟨p₂, size₂⟩} h₄ p₃ text₂ := by
    refine readable_of_chars hbelow₄.live hin₃ hchars₄ (by omega) ?_
    unfold intRange
    omega
  -- both, and they are released
  rcases hbelow₄.concatenate (Finset.insert_nonempty _ _) hread₂ hread₃ (by omega) hshort (by omega)
    with ⟨q, h₅, hrun₅, hgot₅, hchars₅, hq⟩
  have hsize : (BitVec.ofNat 32 ((text₁ ++ ascii ".").length + text₂.length + 1)).toNat =
      (text₁ ++ ascii ".").length + text₂.length + 1 := toNat_ofNat_of_lt (by omega)
  have hfits : (text₁ ++ ascii "." ++ text₂).length <
      (BitVec.ofNat 32 ((text₁ ++ ascii ".").length + text₂.length + 1)).toNat := by
    rw [hsize, List.length_append]
    exact Nat.lt_succ_self _
  generalize BitVec.ofNat 32 ((text₁ ++ ascii ".").length + text₂.length + 1) = size at hgot₅ hfits
  have hnew := Finset.mem_insert_self (⟨q, size⟩ : Block) {⟨p₃, size₃⟩, ⟨p₂, size₂⟩}
  have hfresh₃ := hgot₅.fresh _ hin₃
  have hfresh₂ := hgot₅.fresh _ hin₂
  have hfresh := hgot₄.fresh _ hmem₂
  rcases release_run hgot₅.live (Finset.mem_insert_of_mem hin₃) with ⟨h₆, hrun₆, hl₆, hpres₆⟩
  have hnew₆ : (⟨q, size⟩ : Block) ∈
      Finset.erase {⟨q, size⟩, ⟨p₃, size₃⟩, ⟨p₂, size₂⟩} ⟨p₃, size₃⟩ := by
    refine Finset.mem_erase.mpr ⟨?_, hnew⟩
    rintro ⟨⟩
    exact hfresh₃ rfl
  have hin₆ : (⟨p₂, size₂⟩ : Block) ∈
      Finset.erase {⟨q, size⟩, ⟨p₃, size₃⟩, ⟨p₂, size₂⟩} ⟨p₃, size₃⟩ := by
    refine Finset.mem_erase.mpr ⟨?_, Finset.mem_insert_of_mem hin₂⟩
    rintro ⟨⟩
    exact hfresh rfl
  rcases release_run hl₆ hin₆ with ⟨h₇, hrun₇, hl₇, hpres₇⟩
  have hchars₆ := hchars₅.preserved hpres₆ hgot₅.live hnew hfits
  have hchars₇ := hchars₆.preserved hpres₇ hl₆ hnew₆ hfits
  refine ⟨q, h₇, text₁, text₂, ?_, hchars₇, htext₁, htext₂, hfound, hzero⟩
  unfold joinParts
  rw [run_bind_of_ok hrun₁, run_bind_of_ok hrun₂, run_bind_of_ok hrun₃, run_bind_of_ok hrun₄,
    run_bind_of_ok hrun₅, run_bind_of_ok hrun₆, run_bind_of_ok hrun₇]
  rfl

end Room

/-! ## Exact arithmetic -/

/-- `precise` as the rational numbers: a conversion to `u_dword` drops the fraction. -/
def exactOps : PreciseOps ℚ where
  ofDword w := w.toNat
  toDword b := BitVec.ofNat 32 ⌊b⌋₊
  sub b c := b - c
  mul b c := b * c
  negative b := decide (b < 0)

/-- Wherever the heap has come to: `b`, truncated after `n` digits. -/
def FloatDenotes (b : ℚ) (n : ℕ) : Prop :=
  ∀ literals S h, Live h S → literals.Placed S h →
    FirstFits S h (room decimal (exactOps.toDword b) + 1) →
      Succeeds (floatToString literals exactOps b (BitVec.ofNat 32 n)) h fun q h' =>
        ∃ text, Chars h'.mem q text ∧ Truncates b n text ∧ |b - readDecimal text| < 1 / 10 ^ n

section Exact
variable {b : ℚ} {n : ℕ} {text text' : List UByte}

theorem toNat_toDword (hlt : b < 2 ^ 32) (h0 : 0 ≤ b) : (exactOps.toDword b).toNat = ⌊b⌋₊ := by
  have hfloor : ⌊b⌋₊ < 2 ^ 32 := by
    rw [Nat.floor_lt h0]
    push_cast
    exact hlt
  exact toNat_ofNat_of_lt hfloor

theorem sub_toDword (hlt : b < 2 ^ 32) (h0 : 0 ≤ b) :
    exactOps.sub b (exactOps.ofDword (exactOps.toDword b)) = Int.fract b := by
  show b - ((exactOps.toDword b).toNat : ℚ) = _
  rw [toNat_toDword hlt h0, natCast_floor_eq_intCast_floor h0]
  rfl

theorem scaleLoop_exact (n : ℕ) (f : ℚ) : scaleLoop exactOps n f = f * 10 ^ n := by
  induction n generalizing f with
  | zero => rw [scaleLoop, pow_zero, mul_one]
  | succ n ih =>
    have hten : exactOps.mul f (exactOps.ofDword decimal) = f * 10 := rfl
    rw [scaleLoop, ih, hten, pow_succ', mul_assoc]

/-- The digits after the point fit in a `u_dword`. -/
theorem toNat_floating (hn : n ≤ 9) :
    (exactOps.toDword (Int.fract b * 10 ^ n)).toNat = ⌊Int.fract b * 10 ^ n⌋₊ := by
  have hpow : (10 : ℚ) ^ n ≤ 10 ^ 9 := pow_le_pow_right₀ (by norm_num) hn
  have hfract := Int.fract_nonneg b
  have hone := (Int.fract_lt_one b).le
  have hpos : (0 : ℚ) < 10 ^ n := by positivity
  refine toNat_toDword ?_ (mul_nonneg hfract hpos.le)
  calc Int.fract b * 10 ^ n ≤ 1 * 10 ^ 9 := by gcongr
    _ < 2 ^ 32 := by norm_num

theorem floatToString_exact (literals : Literals) (h0 : 0 ≤ b) (hlt : b < 2 ^ 32) (hn : 1 ≤ n)
    (hn9 : n ≤ 9) : floatToString literals exactOps b (BitVec.ofNat 32 n) =
      joinParts literals (exactOps.toDword b) (exactOps.toDword (Int.fract b * 10 ^ n)) := by
  have hcount : (BitVec.ofNat 32 n : UDword).toNat = n := toNat_ofNat_of_lt (by omega)
  have hne : (BitVec.ofNat 32 n : UDword) ≠ 0 := by
    intro heq
    rw [heq] at hcount
    have hzero : (0 : UDword).toNat = 0 := rfl
    omega
  have hsign : ¬ exactOps.negative b = true := by
    intro hneg
    exact absurd (of_decide_eq_true hneg) (not_lt.mpr h0)
  unfold floatToString
  rw [if_pos hne, hcount, sub_toDword hlt h0, scaleLoop_exact]
  simp only [if_neg hsign, bind_pure]

/-- When both parts have digits, and the fraction all of them. -/
theorem truncates_of_parts (hone : 1 ≤ b) (htenth : 1 / 10 ≤ Int.fract b) (hn : 1 ≤ n)
    (hwhole : IntText 10 ⌊b⌋₊ text) (hpart : IntText 10 ⌊Int.fract b * 10 ^ n⌋₊ text') :
    Truncates b n (text ++ ascii "." ++ text') := by
  have hdigits := (fractionDigits_numeral_iff hn).mpr htenth
  have hfloor : ⌊b⌋₊ ≠ 0 := by
    rw [← Nat.pos_iff_ne_zero, Nat.floor_pos]
    exact hone
  have hpos : ⌊Int.fract b * 10 ^ n⌋₊ ≠ 0 := by
    intro hzero
    have hlength := hdigits.length
    rw [hzero, numeral_zero, List.length_nil] at hlength
    omega
  refine ⟨numeral 10 ⌊Int.fract b * 10 ^ n⌋₊, ?_, hdigits⟩
  have hpoint : ascii "." = [point] := by decide
  rw [hwhole.1 hfloor, hpart.1 hpos, integerText, if_neg hfloor, hpoint, List.append_assoc]
  rfl

/-- What `int_to_string` leaves of a fraction that is too small is not its digits. -/
theorem tenth_le_of_fractionDigits (hn : 1 ≤ n)
    (hpart : IntText 10 ⌊Int.fract b * 10 ^ n⌋₊ text) (hdigits : FractionDigits b n text)
    (hzero : ⌊Int.fract b * 10 ^ n⌋₊ = 0 → text ≠ ascii "0") : 1 / 10 ≤ Int.fract b := by
  by_cases hpos : ⌊Int.fract b * 10 ^ n⌋₊ = 0
  · exact absurd (eq_zero_of_fractionDigits hdigits hn hpos (hpart.2 hpos)) (hzero hpos)
  · rw [hpart.1 hpos] at hdigits
    exact (fractionDigits_numeral_iff hn).mp hdigits

end Exact

/-! ## An empty heap with room -/

/-- Two kilobytes below the strings, where every byte has been zero. -/
def roomyHeap : Heap :=
  initializeHeap 0x1000 0x800 { noHeap with
    mem := ⟨fun a => if a < 0x2000 then 0 else rodata.getD (a.toNat - 0x2000) 0, []⟩ }

theorem roomyHeap_live : Live roomyHeap ∅ :=
  ⟨[], (initializeHeap_spec (by decide) (by decide) _).1, rfl⟩

theorem roomyHeap_start : roomyHeap.heapStart.toNat = 0x1000 + 12 :=
  (initializeHeap_spec (by decide) (by decide) _).2.2.1

theorem roomyHeap_end : roomyHeap.heapEnd.toNat = 0x1000 + 0x800 :=
  (initializeHeap_spec (by decide) (by decide) _).2.2.2.1

theorem roomyHeap_above : RodataAbove roomyHeap := by
  have hend := roomyHeap_end
  exact ⟨by omega, by decide +kernel⟩

theorem roomyHeap_byte : roomyHeap.mem.bytes (roomyHeap.heapStart + 12) = 0 := by
  decide +kernel

section Denotes
variable {b : ℚ} {n : ℕ} {h : Heap}

theorem RodataAbove.strict (hr : RodataAbove h) : RodataAbove (strict h) := hr

/-- `float_to_string` returns on the heap with room, whichever the handler is. -/
theorem roomyHeap_not_hung (whole floating : UDword) :
    (joinParts rodataLiterals whole floating).run (strict roomyHeap) ≠
      .error (.hung allocationException) := by
  intro hstop
  have hstart : (strict roomyHeap).heapStart = roomyHeap.heapStart := rfl
  have hend : (strict roomyHeap).heapEnd = roomyHeap.heapEnd := rfl
  have hl : Live (strict roomyHeap) ∅ := roomyHeap_live.congr_mem rfl rfl
  rcases joinParts_run hl (by rw [hstart, hend, roomyHeap_start, roomyHeap_end]; decide)
    roomyHeap_above.strict.placed whole floating with ⟨q, h', -, -, hrun, -⟩
  rw [hrun] at hstop
  cases hstop

/-- The byte there is no digit for has been a null character. -/
theorem eq_nil_of_foundByte {m : Mem} {p : UDword} {text : List UByte} (hc : ∀ c ∈ text, c ≠ 0)
    (hfound : FoundByte m p 0 text) (hbyte : m.bytes p = 0) : text = [] := by
  cases text with
  | nil => rfl
  | cons c rest =>
    have hhead : c = m.bytes p := hfound rfl
    exact absurd (hhead.trans hbyte) (hc c List.mem_cons_self)

theorem floatDenotes_of_tenth (hlt : b < 2 ^ 32) (hn : 1 ≤ n) (hn9 : n ≤ 9) (hone : 1 ≤ b)
    (htenth : 1 / 10 ≤ Int.fract b) : FloatDenotes b n := by
  have h0 : 0 ≤ b := zero_le_one.trans hone
  intro literals S h hl hplaced hfirst
  have hfirst' : FirstFits (S ∪ blocksOf []) h (room decimal (exactOps.toDword b) + 1) := by
    show FirstFits (S ∪ ∅) h _
    rw [Finset.union_empty]
    exact hfirst
  rw [floatToString_exact literals h0 hlt hn hn9]
  refine Yields.mono (joinParts_spec (Holding.start hl) hplaced _ _ hfirst') ?_
  rintro q h' ⟨size, text, ⟨text₁, text₂, hwhole, hpart, rfl⟩, -, hh⟩
  rw [toNat_toDword hlt h0] at hwhole
  rw [toNat_floating hn9] at hpart
  have htruncates := truncates_of_parts hone htenth hn hwhole hpart
  exact ⟨_, (hh.strings _ List.mem_cons_self).1, htruncates, htruncates.close h0⟩

/-- On the heap whose bytes have been zero, no other number is right. -/
theorem tenth_of_floatDenotes (h0 : 0 ≤ b) (hlt : b < 2 ^ 32) (hn : 1 ≤ n) (hn9 : n ≤ 9)
    (hdenotes : FloatDenotes b n) : 1 ≤ b ∧ 1 / 10 ≤ Int.fract b := by
  have hroom : roomyHeap.heapStart.toNat + 500 ≤ roomyHeap.heapEnd.toNat := by
    rw [roomyHeap_start, roomyHeap_end]
    decide
  have hle := room_le isBase_decimal (exactOps.toDword b)
  have hsucceeds := hdenotes rodataLiterals ∅ roomyHeap roomyHeap_live roomyHeap_above.placed
    fun _ => by omega
  rw [floatToString_exact rodataLiterals h0 hlt hn hn9] at hsucceeds
  rcases hsucceeds with ⟨e, rfl, hstop⟩ | ⟨q, h', hrun, -, text, hchars,
      ⟨digits, htext, hdigits⟩, -⟩
  · exact absurd hstop (roomyHeap_not_hung _ _)
  rcases joinParts_run roomyHeap_live hroom roomyHeap_above.placed (exactOps.toDword b)
    (exactOps.toDword (Int.fract b * 10 ^ n)) with
      ⟨q', h'', text₁, text₂, hrun', hchars', hwhole, hpart, hfound, hzero⟩
  rw [hrun] at hrun'
  have hsame := Prod.mk.inj (Except.ok.inj hrun')
  rw [← hsame.1, ← hsame.2] at hchars'
  have hparts := hchars'.unique hchars
  rw [htext] at hparts
  rw [toNat_toDword hlt h0] at hwhole
  rw [toNat_floating hn9] at hpart
  -- the integer part has a digit
  have hdigit : ⌊b⌋₊ ≠ 0 := by
    intro hfloor
    have hwhole0 : exactOps.toDword b = 0 := by
      apply BitVec.eq_of_toNat_eq
      rw [toNat_toDword hlt h0, hfloor]
      rfl
    rw [hwhole0] at hfound
    have hnil : text₁ = [] := by
      refine eq_nil_of_foundByte (fun c hc => hchars'.nonzero c ?_) hfound roomyHeap_byte
      exact List.mem_append_left _ (List.mem_append_left _ hc)
    rw [hnil, hfloor] at hparts
    have hhead : (ascii ".").head? = (integerText 0).head? := by
      have := congrArg List.head? hparts
      exact this
    exact absurd hhead (by decide)
  have hone : 1 ≤ b := Nat.floor_pos.mp (Nat.pos_of_ne_zero hdigit)
  -- so the parts are those that were to be
  have hpoint : ascii "." = [point] := by decide
  rw [hwhole.1 hdigit, integerText, if_neg hdigit, hpoint, List.append_assoc] at hparts
  have htext₂ : text₂ = digits := (List.cons.inj (List.append_cancel_left hparts)).2
  rw [← htext₂] at hdigits
  refine ⟨hone, tenth_le_of_fractionDigits hn hpart hdigits fun hpos => hzero ?_ ?_⟩
  · intro hwhole0
    rw [← toNat_toDword hlt h0, hwhole0] at hdigit
    exact hdigit rfl
  · apply BitVec.eq_of_toNat_eq
    rw [toNat_floating hn9, hpos]
    rfl

/-- `float_to_string` is right for a number with an integer part and a fraction of a tenth or
more, and for no other. -/
theorem floatDenotes_iff (h0 : 0 ≤ b) (hlt : b < 2 ^ 32) (hn : 1 ≤ n) (hn9 : n ≤ 9) :
    FloatDenotes b n ↔ 1 ≤ b ∧ 1 / 10 ≤ Int.fract b := by
  constructor
  · exact tenth_of_floatDenotes h0 hlt hn hn9
  · rintro ⟨hone, htenth⟩
    exact floatDenotes_of_tenth hlt hn hn9 hone htenth

theorem floatDenotes_five_halves : FloatDenotes (5 / 2) 4 := by
  have hiff := @floatDenotes_iff (5 / 2) 4 (by norm_num) (by norm_num) (by decide) (by decide)
  exact hiff.mpr ⟨by norm_num, by norm_num⟩

/-- `3.0625` has a zero after the point, and `0.5` one before it. -/
theorem not_floatDenotes_zeros : ¬ FloatDenotes (49 / 16) 4 ∧ ¬ FloatDenotes (1 / 2) 4 := by
  constructor
  · intro hdenotes
    have hparts := tenth_of_floatDenotes (by norm_num) (by norm_num) (by decide) (by decide)
        hdenotes
    norm_num at hparts
  · intro hdenotes
    have hparts := tenth_of_floatDenotes (by norm_num) (by norm_num) (by decide) (by decide)
        hdenotes
    norm_num at hparts

end Denotes

end MushOS
