import Nuaf.LocalHeap
import Nuaf.AlignedCalls

/-! The functions of wrapper.h on the heap a program sees, from the rules of the calls they make. -/
namespace Nuaf.ExportedCalls
open CallTree ByteHeap Layout Nuaf.Sequential Wrapper LocalHeap

variable {n p s i j v fuel alignment : Nat} {H L : Objects} {c d : Cells} {h : List (Op × Nat)}
  {byte : UInt8} {t : List UInt8} {refused : Prop}

theorem memsetSafe (knows : Knows H h L) (here : H p = some c) (room : n ≤ c.size) :
    Locally (memset p byte n) h L fun _ => Knows (H.put p (c.fill n byte)) := by
  induction n with
  | zero =>
    refine safePure () (knowsBelow knows ?_)
    have kept := (Objects.Below.refl H).put (p := p) (fillNothing (c := c) (v := byte))
    rwa [putHere here] at kept
  | succ n ih =>
    refine safeThen (ih (by omega)) fun _ h L filled => ?_
    refine safeThen (storeSafe filled putSelf room) fun _ h L stored => safePure () ?_
    rw [putTwice] at stored
    exact knowsBelow stored ((Objects.Below.refl H).put fillNext)

theorem memcpySafe (knows : Knows H h L) (here : H p = some c) (there : H s = some d)
    (other : s ≠ p) (room : n ≤ c.size) (inside : n ≤ d.size) :
    Locally (memcpy p s n) h L fun _ => Knows (H.put p (c.copy d n)) := by
  induction n with
  | zero =>
    refine safePure () (knowsBelow knows ?_)
    have kept := (Objects.Below.refl H).put (p := p) (copyNothing (c := c) (d := d))
    rwa [putHere here] at kept
  | succ n ih =>
    refine safeThen (ih (by omega) (by omega)) fun _ h L copied => ?_
    refine safeThen (loadSafe copied ((putOther other).trans there) rfl inside) fun v h L loaded => ?_
    refine safeThen (storeSafe loaded.2 putSelf room) fun _ h L stored => safePure () ?_
    rw [putTwice] at stored
    refine knowsBelow stored ((Objects.Below.refl H).put (copyNext fun w known => ?_))
    rw [loaded.1 w known, UInt8.ofNat_toNat]

theorem callocRefuses {nelem elsize : Nat} :
    (elsize ≠ 0 ∧ nelem ≠ wrap (nelem * elsize) / elsize) ↔ 2 ^ 64 ≤ nelem * elsize := by
  rcases Nat.eq_zero_or_pos elsize with rfl | positive
  · simp
  · rcases Nat.lt_or_ge (nelem * elsize) (2 ^ 64) with fits | past
    · rw [wrapSmall fits, Nat.mul_div_cancel _ positive]
      exact ⟨fun wraps => absurd rfl wraps.2, fun past => absurd fits (Nat.not_lt.mpr past)⟩
    · have less : wrap (nelem * elsize) / elsize < nelem := by
        rw [Nat.div_lt_iff_lt_mul positive]
        exact Nat.lt_of_lt_of_le (Nat.mod_lt _ (by decide)) past
      exact ⟨fun _ => past, fun _ => ⟨Nat.ne_of_gt positive, Nat.ne_of_gt less⟩⟩

theorem callocSafe (knows : Knows H h L) (nelem elsize : Nat) :
    Locally (customCalloc nelem elsize) h L (Given H (2 ^ 63 ≤ nelem * elsize)
      ((Cells.blank (nelem * elsize)).fill (nelem * elsize) 0)) := by
  unfold customCalloc
  dsimp only
  split
  · rename_i wraps
    exact safePure 0 (.null (Nat.le_trans (by decide) (callocRefuses.mp wraps)) knows)
  · rename_i fits
    rw [wrapSmall (Nat.lt_of_not_le (mt callocRefuses.mpr fits))]
    refine safeThen (mallocSafe knows _) fun p h L given => ?_
    cases given with
    | null refuses knows => exact safePure 0 (.null refuses knows)
    | made grants some aligned fresh knows =>
      rw [if_pos some]
      refine safeThen (memsetSafe knows putSelf (Nat.le_refl _)) fun _ h L filled => safePure p ?_
      rw [putTwice] at filled
      exact .made grants some aligned fresh filled

theorem goodsizeSafe (knows : Knows H h L) (n : Nat) :
    Locally (customGoodsize n) h L fun v h L =>
      (if 2 ^ 63 ≤ n then v = 0 else n ≤ v) ∧ Knows H h L := by
  refine safeThen (mallocSafe knows n) fun p h L given => ?_
  cases given with
  | null refuses knows =>
    refine safeThen (nullSizeSafe knows) fun size h L sized => ?_
    refine safeThen (nullSafe sized.2) fun _ h L freed => safePure size ⟨?_, freed⟩
    rw [if_pos refuses]
    exact sized.1
  | made grants some aligned fresh knows =>
    refine safeThen (getsizeSafe knows putSelf) fun size h L sized => ?_
    rw [putTwice] at sized
    refine safeThen (freeSafe sized.2 putSelf) fun _ h L freed => safePure size ⟨?_, ?_⟩
    · rw [if_neg grants]
      exact sized.1
    · rwa [putDrop fresh] at freed

theorem reallocSafe (knows : Knows H h L) (here : H p = some c) (n : Nat) :
    Locally (customRealloc p n) h L (Given (H.drop p) (n = 0 ∨ 2 ^ 63 ≤ n)
      ((Cells.blank n).copy c (min c.size n))) := by
  obtain ⟨some, aligned, _⟩ := knowsPlace knows here
  unfold customRealloc
  rw [if_neg some]
  split
  · rename_i zero
    exact safeThen (freeSafe knows here) fun _ h L freed => safePure 0 (.null (.inl zero) freed)
  rename_i positive
  refine safeThen (getsizeSafe knows here) fun objSize h L ⟨long, sized⟩ => ?_
  refine safeThen (mallocSafe sized n) fun buf h L given => ?_
  cases given with
  | null refuses knows =>
    rw [if_pos rfl]
    refine safeThen (freeSafe knows putSelf) fun _ h L freed => safePure 0 (.null (.inr refuses) ?_)
    rwa [putGone] at freed
  | made grants real alignedBuf fresh knows =>
    have other : buf ≠ p := by
      rintro rfl
      rw [putSelf] at fresh
      cases fresh
    rw [putOther other] at fresh
    have granted : ¬ (n = 0 ∨ 2 ^ 63 ≤ n) := fun refused => refused.elim positive grants
    rw [if_neg real]
    refine safeThen (getsizeSafe knows putSelf) fun bufSize h L ⟨enough, sized⟩ => ?_
    rw [putTwice] at sized
    split
    · rename_i same
      refine safeThen (freeSafe sized putSelf) fun _ h L freed => safePure p ?_
      rw [putDrop ((putOther other).trans fresh)] at freed
      refine .made granted some aligned dropSelf (knowsBelow freed ?_)
      rw [dropPut]
      exact (Objects.Below.refl H).put (blankCopied (same ▸ enough) fun _ _ _ known => known)
    · have least : (if objSize < n then objSize else n) ≤ n ∧
          (if objSize < n then objSize else n) ≤ objSize ∧
          min c.size n ≤ (if objSize < n then objSize else n) := by
        split <;> omega
      refine safeThen (memcpySafe sized putSelf ((putOther (Ne.symm other)).trans putSelf) (Ne.symm other)
        (Nat.le_trans least.1 enough) least.2.1) fun _ h L copied => ?_
      rw [putTwice] at copied
      refine safeThen (freeSafe copied ((putOther (Ne.symm other)).trans putSelf)) fun _ h L freed =>
        safePure buf ?_
      rw [dropPutOther other, putGone] at freed
      refine .made granted real alignedBuf ((dropOther other).trans fresh) (knowsBelow freed ?_)
      refine (Objects.Below.refl (H.drop p)).put (blankCopied enough fun j inside v known => ?_)
      simpa [Cells.copy, Nat.lt_of_lt_of_le inside least.2.2] using known

theorem reallocNullSafe (knows : Knows H h L) (n : Nat) :
    Locally (customRealloc 0 n) h L (Given H (2 ^ 63 ≤ n) (.blank n)) := mallocSafe knows n

theorem recallocNullSafe (knows : Knows H h L) (num sz : Nat) :
    Locally (customRecalloc 0 num sz) h L (Given H (2 ^ 63 ≤ wrap (num * sz))
      ((Cells.blank (wrap (num * sz))).fill (wrap (num * sz)) 0)) := by
  refine safeThen (reallocNullSafe knows _) fun p h L given => ?_
  cases given with
  | null refuses knows =>
    rw [if_neg (by simp)]
    exact safePure 0 (.null refuses knows)
  | made grants some aligned fresh knows =>
    rw [if_pos ⟨rfl, some⟩]
    refine safeThen (getsizeSafe knows putSelf) fun size h L ⟨enough, sized⟩ => ?_
    rw [putTwice] at sized
    refine safeThen (memsetSafe sized putSelf (Nat.le_refl _)) fun _ h L filled => safePure p ?_
    rw [putTwice] at filled
    refine .made grants some aligned fresh (knowsBelow filled ?_)
    refine (Objects.Below.refl H).put ⟨enough, fun i v known => ?_⟩
    by_cases inside : i < wrap (num * sz)
    · have within : i < size := Nat.lt_of_lt_of_le inside enough
      simpa [Cells.fill, inside, within] using known
    · simp [Cells.fill, Cells.blank, inside] at known

theorem recallocSafe (knows : Knows H h L) (here : H p = some c) (num sz : Nat) :
    Locally (customRecalloc p num sz) h L
      (Given (H.drop p) (wrap (num * sz) = 0 ∨ 2 ^ 63 ≤ wrap (num * sz))
        ((Cells.blank (wrap (num * sz))).copy c (min c.size (wrap (num * sz))))) := by
  refine safeThen (reallocSafe knows here _) fun q h L given => ?_
  rw [if_neg fun both => (knowsPlace knows here).1 both.1]
  exact safePure q given

theorem givenWeaker {refused' : Prop} (given : Given H refused c v h L)
    (same : refused ↔ refused') (low : d.Below c) : Given H refused' d v h L := by
  cases given with
  | null refuses knows => exact .null (same.mp refuses) knows
  | made grants some aligned fresh knows =>
    exact .made (mt same.mpr grants) some aligned fresh
      (knowsBelow knows ((Objects.Below.refl H).put low))

def Invalid (alignment : Nat) : Prop := alignment = 0 ∨ alignment &&& (alignment - 1) ≠ 0

instance (alignment : Nat) : Decidable (Invalid alignment) := by
  unfold Invalid
  infer_instance

theorem invalidPower (valid : ¬ Invalid alignment) : alignment.isPowerOfTwo := by
  obtain ⟨real, bits⟩ := not_or.mp valid
  exact Nat.ne_zero_and_sub_one_eq_zero_iff_isPowerOfTwo.mp ⟨real, not_not.mp bits⟩

def padding (alignment : Nat) : Nat := if alignment = 8 then 0 else 2 * alignment

theorem alignedKept (knows : Knows H h L) (here : H p = some c) (narrow : 2 ^ i ≤ 16) :
    p &&& (2 ^ i - 1) ≠ p ∧ alignUp p (2 ^ i) = p := by
  obtain ⟨some, aligned, top⟩ := knowsPlace knows here
  have short : i ≤ 64 := (Nat.pow_le_pow_iff_right (by decide)).mp (Nat.le_trans narrow (by decide))
  have less := Nat.mod_lt p (Nat.two_pow_pos i)
  refine ⟨?_, alignUpMultiple short (by omega) (divides narrow aligned)⟩
  rw [Nat.and_two_pow_sub_one_eq_mod]
  simp only [byteAlignment] at aligned
  omega

theorem memalignSafe (knows : Knows H h L) (small : alignment ≤ 16) (n : Nat) :
    Locally (customMemalign alignment n) h L
      (Given H (Invalid alignment ∨ 2 ^ 63 ≤ n + padding alignment) (.blank n)) := by
  unfold customMemalign
  split
  · rename_i invalid
    exact safePure 0 (.null (.inl invalid) knows)
  rename_i valid
  have refuses : ∀ m, 2 ^ 63 ≤ m ↔ Invalid alignment ∨ 2 ^ 63 ≤ m := fun m => by
    rw [or_iff_right (show ¬ Invalid alignment from valid)]
  split
  · rename_i eight
    refine safeMono (mallocSafe knows n) fun p h L given => givenWeaker given ?_ (.refl _)
    rw [padding, if_pos eight]
    exact refuses n
  rename_i other
  obtain ⟨i, rfl⟩ := invalidPower valid
  have padded : padding (2 ^ i) = 2 * 2 ^ i := if_neg other
  refine safeThen (mallocSafe knows n) fun p h L given => ?_
  cases given with
  | null huge knows =>
    rw [if_pos (Nat.zero_and _)]
    exact safePure 0 (.null (.inr (Nat.le_trans huge (Nat.le_add_right _ _))) knows)
  | made grants some aligned fresh knows =>
    rw [if_neg (alignedKept knows putSelf small).1]
    refine safeThen (freeSafe knows putSelf) fun _ h L freed => ?_
    rw [putDrop fresh] at freed
    rw [wrapSmall (x := 2 * 2 ^ i) (by omega), wrapSmall (by omega), ← padded]
    refine safeThen (mallocSafe freed _) fun p h L given => safePure _ ?_
    cases given with
    | null huge knows =>
      have short : i ≤ 64 := (Nat.pow_le_pow_iff_right (by decide)).mp (Nat.le_trans small (by decide))
      rw [alignUpZero short]
      exact .null (.inr huge) knows
    | made grants some aligned fresh knows =>
      rw [(alignedKept knows putSelf small).2]
      exact givenWeaker (.made grants some aligned fresh knows) (refuses _)
        (blankBelow (Nat.le_add_right _ _))

structure TextAt (c : Cells) (j : Nat) (t : List UInt8) : Prop where
  inside : j + t.length ≤ c.size
  bytes : ∀ i w, t[i]? = some w → c.byte (j + i) = some w ∧ w ≠ 0

structure Closed (c : Cells) (j : Nat) (t : List UInt8) : Prop where
  inside : j + t.length < c.size
  zero : c.byte (j + t.length) = some 0

theorem zeroByte {w : UInt8} : w.toNat = 0 ↔ w = 0 := by
  rw [← UInt8.toNat_inj]
  rfl

theorem textSafe (knows : Knows H h L) (here : H p = some c) (text : TextAt c j t)
    (index : i < t.length ∨ i = t.length ∧ Closed c j t) :
    Locally (ask (.load (p + j) i)) h L fun v h L =>
      (t ++ [0])[i]? = some (UInt8.ofNat v) ∧ (v = 0 ↔ i = t.length) ∧ Knows H h L := by
  have inside : j + i < c.size := by
    have := text.inside
    rcases index with low | ⟨rfl, closed⟩
    · omega
    · exact closed.inside
  refine safeMono (loadSafe knows here (Nat.add_assoc p j i) inside) fun v h L ⟨read, knows⟩ => ?_
  rcases index with low | ⟨rfl, closed⟩
  · obtain ⟨w, known⟩ := Option.ne_none_iff_exists'.mp (mt List.getElem?_eq_none_iff.mp (Nat.not_le.mpr low))
    obtain ⟨byte, nonzero⟩ := text.bytes i w known
    rw [read w byte, UInt8.ofNat_toNat, List.getElem?_append_left low, zeroByte]
    exact ⟨known, ⟨fun zero => absurd zero nonzero, fun same => absurd same (Nat.ne_of_lt low)⟩, knows⟩
  · rw [read 0 closed.zero]
    exact ⟨by simp, by simp, knows⟩

theorem strnlenSafe (knows : Knows H h L) (here : H p = some c) (text : TextAt c j t)
    (low : i ≤ t.length) (enough : t.length ≤ i + fuel)
    (stops : t.length < i + fuel → Closed c j t) :
    Locally (strnlenFrom (p + j) i fuel) h L fun v h L => v = t.length ∧ Knows H h L := by
  induction fuel generalizing i h L with
  | zero => exact safePure i ⟨by omega, knows⟩
  | succ fuel ih =>
    have index : i < t.length ∨ i = t.length ∧ Closed c j t := by
      rcases Nat.lt_or_ge i t.length with less | last
      · exact .inl less
      · exact .inr ⟨by omega, stops (by omega)⟩
    refine safeThen (textSafe knows here text index) fun v h L ⟨_, zero, knows⟩ => ?_
    split
    · rename_i ends
      exact safePure i ⟨zero.mp ends, knows⟩
    · rename_i goes
      exact ih knows (by have := mt zero.mpr goes; omega) (by omega) fun less => stops (by omega)

def written (t : List UInt8) (i : Nat) : Cells :=
  (Cells.blank (t ++ [0]).length).copy (.text (t ++ [0])) i

theorem writtenNext (knows : Knows (H.put s (written t i)) h L)
    (inside : i < (t ++ [0]).length) {w : UInt8} (known : (t ++ [0])[i]? = some w) :
    Locally (ask (.store s i w)) h L fun _ => Knows (H.put s (written t (i + 1))) := by
  refine safeMono (storeSafe knows putSelf inside) fun _ h L stored => ?_
  rw [putTwice] at stored
  refine knowsBelow stored ((Objects.Below.refl H).put (copyNext fun x there => ?_))
  exact Option.some.inj (there.symm.trans known)

theorem strcpySafe (knows : Knows (H.put s (written t i)) h L) (here : H p = some c)
    (other : p ≠ s) (text : TextAt c j t) (closed : Closed c j t) (low : i ≤ t.length)
    (enough : t.length < i + fuel) : Locally (strcpyFrom s (p + j) i fuel) h L fun _ =>
      Knows (H.put s (.text (t ++ [0]))) := by
  induction fuel generalizing i h L with
  | zero => omega
  | succ fuel ih =>
    have length : (t ++ [0]).length = t.length + 1 := List.length_append
    have index : i < t.length ∨ i = t.length ∧ Closed c j t := by
      rcases Nat.lt_or_ge i t.length with less | last
      · exact .inl less
      · exact .inr ⟨by omega, closed⟩
    refine safeThen (textSafe knows ((putOther other).trans here) text index)
      fun v h L ⟨known, zero, knows⟩ => ?_
    refine safeThen (writtenNext knows (by omega) known) fun _ h L knows => ?_
    split
    · rename_i ends
      refine safePure () (knowsBelow knows ((Objects.Below.refl H).put ?_))
      rw [zero.mp ends, ← length]
      exact textCopied (t ++ [0])
    · rename_i goes
      exact ih knows (by have := mt zero.mpr goes; omega) (by omega)

theorem strncpySafe (knows : Knows (H.put s (written t i)) h L) (here : H p = some c)
    (other : p ≠ s) (text : TextAt c j t) (fits : i + fuel = t.length) :
    Locally (strncpyFrom s (p + j) i fuel) h L fun _ =>
      Knows (H.put s (written t t.length)) := by
  induction fuel generalizing i h L with
  | zero =>
    obtain rfl : i = t.length := by omega
    exact safePure () knows
  | succ fuel ih =>
    have length : (t ++ [0]).length = t.length + 1 := List.length_append
    refine safeThen (textSafe knows ((putOther other).trans here) text (.inl (by omega)))
      fun v h L ⟨known, zero, knows⟩ => ?_
    refine safeThen (writtenNext knows (by omega) known) fun _ h L knows => ?_
    rw [if_neg (mt zero.mp (by omega))]
    exact ih knows (by omega)

theorem textRoom (knows : Knows H h L) (short : t.length + 1 < 2 ^ 63) :
    Locally (customMalloc (wrap (t.length + 1))) h L fun q h L => q ≠ 0 ∧ q % byteAlignment = 0 ∧
      H q = none ∧ Knows (H.put q (written t 0)) h L := by
  have length : (t ++ [0]).length = t.length + 1 := List.length_append
  rw [wrapSmall (by omega)]
  refine safeMono (mallocSafe knows _) fun q h L given => ?_
  cases given with
  | null huge => exact absurd short (Nat.not_lt.mpr huge)
  | made _ real aligned fresh knows =>
    exact ⟨real, aligned, fresh, knowsBelow knows
      ((Objects.Below.refl H).put (blankCopied (Nat.le_of_eq length) (by omega)))⟩

theorem strdupSafe (knows : Knows H h L) (here : H p = some c) (text : TextAt c j t)
    (closed : Closed c j t) : Locally (customStrdup (p + j)) h L
      (Given H False (.text (t ++ [0]))) := by
  obtain ⟨some, _, top⟩ := knowsPlace knows here
  have short := closed.inside
  unfold customStrdup
  rw [if_pos (by omega)]
  refine safeThen (strnlenSafe knows here text (Nat.zero_le _) (by omega) fun _ => closed)
    fun v h L ⟨same, knows⟩ => ?_
  rw [same]
  refine safeThen (textRoom knows (by omega)) fun q h L ⟨real, aligned, fresh, begins⟩ => ?_
  rw [if_pos real]
  refine safeThen (strcpySafe begins here (freshOther fresh here) text closed (Nat.zero_le _) (by omega))
    fun _ h L copied => safePure q ?_
  exact .made id real aligned fresh copied

theorem strndupSafe (knows : Knows H h L) (here : H p = some c) (text : TextAt c j t)
    (cut : t.length ≤ n) (closed : t.length < n → Closed c j t) :
    Locally (customStrndup (p + j) n) h L (Given H False (.text (t ++ [0]))) := by
  obtain ⟨some, _, top⟩ := knowsPlace knows here
  have short := text.inside
  have length : (t ++ [0]).length = t.length + 1 := List.length_append
  unfold customStrndup
  rw [if_pos (by omega)]
  refine safeThen (strnlenSafe knows here text (Nat.zero_le _) (by omega) fun less => closed (by omega))
    fun v h L ⟨same, knows⟩ => ?_
  rw [same]
  refine safeThen (textRoom knows (by omega)) fun q h L ⟨real, aligned, fresh, begins⟩ => ?_
  rw [if_pos real]
  refine safeThen (strncpySafe begins here (freshOther fresh here) text (by omega))
    fun _ h L copied => ?_
  refine safeThen (writtenNext copied (by omega) (by simp)) fun _ h L closed => safePure q ?_
  refine .made id real aligned fresh (knowsBelow closed ((Objects.Below.refl H).put ?_))
  rw [← length]
  exact textCopied (t ++ [0])

end Nuaf.ExportedCalls
