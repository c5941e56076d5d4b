/-
# `Xv6.Exec.Spec` — `exec` as a whole

`exec` on a process with a well-formed address space: it ends without a panic; if it
fails nothing has happened, and if it succeeds the process has the image that the
file describes, with the arguments on its stack.
-/
import Xv6.Exec.Args
import Xv6.Exec.Load
import Xv6.Mem.Conserve

namespace Xv6.Exec

open Machine Xv6.Mem Xv6.Vm Function Multiset

variable {im : Image} {t tf : Nat} {s : Sys} {r : Ram} {k₀ : Kmem} {m₀ : Phys} {pt : Pgtbl} {x : Img}
  {g : Option Nat} {data : List UInt8} {α : Type} {n : Nat}

/-! ## The states of a call -/

/-- What `exec` needs of its process: an address space whose pages are its own, in a
machine whose memory is smaller than `TRAPFRAME`. -/
structure Ready (im : Image) (s : Sys) : Prop where
  space : ∃ g, Space im s.ram.kmem s.proc.pagetable s.proc.trapframe s.proc.sz g
  nodup : (s.ram.kmem.ledger.free + owned s.proc.pagetable s.proc.sz).Nodup
  unlocked : s.ip.locked = false

/-- In the transaction, with the inode locked. -/
def Sys.entered (s : Sys) (r : Ram) : Sys := ⟨r, ⟨true, s.ip.ref + 1⟩, s.outstanding + 1, s.proc⟩

/-- Out of the transaction. -/
def Sys.left (s : Sys) (r : Ram) : Sys := ⟨r, s.ip, s.outstanding, s.proc⟩

/-- Nothing is left of a call that failed: of the pages it took all are free again, and
only in pages that were free has it written. -/
structure GaveUp (s s' : Sys) : Prop where
  same : ∃ r, s' = s.left r
  moves : Moves s.proc.pid s.ram.kmem.ledger 0 s'.ram.kmem.ledger 0
  mem : SameOff s.ram.kmem.ledger.free s.ram.mem s'.ram.mem

theorem succeeds_onRam {n : RamM α} {Q : α → Ram → Prop} (h : Succeeds n s.ram Q) :
    Succeeds (onRam n) s fun a s' => ∃ r, s' = ⟨r, s.ip, s.outstanding, s.proc⟩ ∧ Q a r := by
  obtain ⟨a, r, hn, hQ⟩ := h
  refine ⟨a, _, ?_, r, rfl, hQ⟩
  show (n s.ram >>= fun x => pure (x.1, ({ s with ram := x.2 } : Sys))) = _
  rw [hn]
  rfl

/-- A space that is given up goes back. -/
theorem Built.free (h : Built im t tf k₀ m₀ r pt x g) :
    Succeeds (onKmem (procFreepagetable im pt x.sz)) r fun _ r' =>
      r'.mem = r.mem ∧ Moves t k₀.ledger 0 r'.kmem.ledger 0 := by
  refine (succeeds_onKmem (succeeds_procFreepagetable h.space.shape h.space.size h.space.ok)).mono
    fun _ r' ⟨hm, hmv⟩ => ⟨hm, h.moves.trans ?_⟩
  have := hmv t 0
  rwa [add_zero] at this

/-- `bad:` in the transaction, without a page table. -/
theorem succeeds_bad_early (hun : s.ip.locked = false)
    (hmv : Moves s.proc.pid s.ram.kmem.ledger 0 r.kmem.ledger 0)
    (hsame : SameOff s.ram.kmem.ledger.free s.ram.mem r.mem) :
    Succeeds (bad (α := α) im none 0 true) (s.entered r) fun o s' => o = none ∧ GaveUp s s' := by
  refine Succeeds.write (Succeeds.write (Succeeds.pure ⟨rfl, ⟨r, ?_⟩, hmv, hsame⟩))
  show (⟨r, ⟨false, s.ip.ref⟩, s.outstanding, s.proc⟩ : Sys) = _
  rw [← hun]
  rfl

/-- `bad:` in the transaction, with a page table. -/
theorem succeeds_bad_entered (hun : s.ip.locked = false)
    (h : Built im s.proc.pid tf s.ram.kmem s.ram.mem r pt x g) :
    Succeeds (bad (α := α) im (some pt) x.sz true) (s.entered r) fun o s' =>
      o = none ∧ GaveUp s s' := by
  refine (succeeds_onRam h.free).seq ?_
  rintro _ _ ⟨r', rfl, hm, hmv⟩
  have hbad : Succeeds (bad (α := α) im none 0 true) (s.entered r') _ :=
    succeeds_bad_early hun hmv (hm ▸ h.same)
  exact hbad

/-- `bad:` after the transaction. -/
theorem succeeds_bad_left (h : Built im s.proc.pid tf s.ram.kmem s.ram.mem r pt x g) :
    Succeeds (bad (α := α) im (some pt) x.sz false) (s.left r) fun o s' =>
      o = none ∧ GaveUp s s' := by
  refine (succeeds_onRam h.free).seq ?_
  rintro _ _ ⟨r', rfl, hm, hmv⟩
  exact Succeeds.pure ⟨rfl, ⟨r', rfl⟩, hmv, hm ▸ h.same⟩

/-! ## The image -/

/-- The ELF header of a file. -/
def elfOf (data : List UInt8) : Elfhdr := .ofBytes (readi data 0 64)

/-- The loadable segments of a file. -/
def segmentsOf (data : List UInt8) : List Proghdr :=
  segments data (elfOf data).phnum.toNat (elfOf data).phoff.toUInt32

def Img.empty : Img := ⟨0, fun _ => ⟨false, false, false, false⟩, fun _ => 0⟩

/-- The image that a file describes. -/
def imageOf (data : List UInt8) : Img := (segmentsOf data).foldl (Img.load data) Img.empty

/-- The size rounded up to whole pages. -/
def Img.rounded (x : Img) : Img := ⟨npages x.sz * PGSIZE, x.perm, x.byte⟩

/-- The permissions of a stack page. -/
def stackPerm : Perm := ⟨false, true, false, false⟩

/-- A page loses `PTE_U`. -/
def Img.guard (x : Img) (n : Nat) : Img :=
  ⟨x.sz, update x.perm n { x.perm n with u := false }, x.byte⟩

/-- The image with a guard page and a stack above it. -/
def Img.withStack (x : Img) : Img :=
  (x.rounded.grow ((npages x.sz + (USERSTACK + 1)) * PGSIZE) stackPerm).guard (npages x.sz)

theorem npages_mul_of_shape (h : Shape im pt tf n g) : npages (n * PGSIZE) = n := by
  have hroom : n ≤ 67108862 := h.room
  exact npages_mul (show n ≤ 67108864 by omega)

theorem Built.rounded (h : Built im t tf k₀ m₀ r pt x g) : Built im t tf k₀ m₀ r pt x.rounded g := by
  have hnp : npages (npages x.sz * PGSIZE) = npages x.sz := npages_mul_of_shape h.space.shape
  have hown : owned pt (npages x.sz * PGSIZE) = owned pt x.sz := owned_congr rfl hnp fun _ _ => rfl
  have hsz : npages x.sz * PGSIZE ≤ MAXVA := h.top_le
  have htop : x.rounded.top = x.top := by
    show npages (npages x.sz * PGSIZE) * PGSIZE = npages x.sz * PGSIZE
    rw [hnp]
  refine ⟨h.space.moved (t := t) ?_ hsz ?_, ?_, h.same, ⟨fun i hi => ?_, fun va hva => ?_⟩,
    fun va hva => h.blank va (htop ▸ hva)⟩
  · show Shape im pt tf (npages (npages x.sz * PGSIZE)) g
    rw [hnp]
    exact h.space.shape
  · show Moves t r.kmem.ledger (owned pt x.sz) r.kmem.ledger (owned pt (npages x.sz * PGSIZE))
    rw [hown]
    exact Moves.refl _ _ _
  · show Moves t k₀.ledger 0 r.kmem.ledger (owned pt (npages x.sz * PGSIZE))
    rw [hown]
    exact h.moves
  · have hi : i < npages (npages x.sz * PGSIZE) := hi
    rw [hnp] at hi
    exact h.shows.perm i hi
  · exact h.shows.byte va (htop ▸ hva)

/-- `uvmclear` makes a page of the space the guard page. -/
theorem Built.guard (h : Built im t tf k₀ m₀ r pt x none) (hn : n < npages x.sz) :
    Succeeds (onKmem (uvmclear pt (n * PGSIZE))) r fun pt' r' =>
      Built im t tf k₀ m₀ r' pt' (x.guard n) (some n) := by
  have hroom : npages x.sz ≤ 67108862 := h.space.shape.room
  refine (succeeds_onKmem (succeeds_uvmclear (show n < 67108864 by omega)
    (h.space.shape.user n hn).1.1)).mono ?_
  rintro pt' ⟨k', m'⟩ ⟨hm, hk, ht, hmap⟩
  obtain rfl : m' = r.mem := hm
  obtain rfl : k' = r.kmem := hk
  have hpa : ∀ i, (pt'.map i).pa = (pt.map i).pa := fun i => by
    rw [hmap]
    by_cases hi : i = n
    · subst hi
      rw [update_self]
    · rw [update_of_ne hi]
  have hown : owned pt' x.sz = owned pt x.sz := owned_congr ht rfl fun i _ => hpa i
  refine ⟨h.space.moved (t := t) (h.space.shape.guarded hn hmap) (size_le_maxva h.space.size) ?_, ?_,
    h.same, ⟨fun i hi => ?_, fun va hva => ?_⟩, h.blank⟩
  · show Moves t r.kmem.ledger (owned pt x.sz) r.kmem.ledger (owned pt' x.sz)
    rw [hown]
    exact Moves.refl _ _ _
  · show Moves t k₀.ledger 0 r.kmem.ledger (owned pt' x.sz)
    rw [hown]
    exact h.moves
  · have hold := h.shows.perm i hi
    rw [hmap]
    by_cases hin : i = n
    · subst hin
      simp only [Img.guard, update_self]
      rw [← hold]
      rfl
    · simp only [Img.guard, update_of_ne hin]
      exact hold
  · have hva' : va < MAXVA := lt_of_lt_of_le hva h.top_le
    refine Eq.trans ?_ (h.shows.byte va hva)
    rw [byteAt, byteAt, phys_eq hva', phys_eq hva', hpa]

/-! ## prepare -/

theorem Ready.allOk (h : Ready im s) : AllOk im.kend s.ram.kmem 0 := by
  obtain ⟨g, hsp⟩ := h.space
  intro pa hpa
  rw [add_zero] at hpa
  exact hsp.ok pa (mem_add.mpr (.inl hpa))

theorem Ready.free_nodup (h : Ready im s) : s.ram.kmem.ledger.free.Nodup :=
  (nodup_add.mp h.nodup).1

theorem Ready.room (h : Ready im s) : s.ram.kmem.freelist.length ≤ TFPAGE := by
  obtain ⟨g, hsp⟩ := h.space
  exact (Nat.le_add_right _ _).trans hsp.room

/-- A new page table is an empty space. -/
theorem built_empty (hok : AllOk im.kend k₀ 0) (hroom : k₀.freelist.length ≤ TFPAGE) (hm : r.mem = m₀)
    (hs : Shape im pt tf 0 none) (hmv : Moves t k₀.ledger 0 r.kmem.ledger pt.tables) :
    Built im t tf k₀ m₀ r pt Img.empty none := by
  rw [← owned_zero] at hmv
  have hcard := card_of_moves hmv
  rw [card_zero] at hcard
  refine ⟨⟨hs, Nat.zero_le _, ?_, hok.moves hmv⟩, hmv, ?_, ⟨fun i hi => ?_, fun va hva => ?_⟩,
    fun _ _ => rfl⟩
  · show r.kmem.freelist.length + (owned pt 0).card ≤ TFPAGE
    omega
  · rw [hm]
    exact SameOff.refl _ _
  · exact absurd hi (Nat.not_lt_zero i)
  · have hva : va < 0 * PGSIZE := hva
    omega

/-- The new image, before the arguments are pushed. -/
structure Prepared (im : Image) (s : Sys) (data : List UInt8) (new : NewImage) (r : Ram) : Prop where
  built : Built im s.proc.pid s.proc.trapframe s.ram.kmem s.ram.mem r new.pagetable
    (imageOf data).withStack (some (npages (imageOf data).sz))
  sz : new.sz = (imageOf data).withStack.sz
  size : (imageOf data).sz ≤ TRAPFRAME
  entry : new.entry = (elfOf data).entry
  checked : ∀ ph ∈ segmentsOf data, Checked ph

theorem withStack_sz (x : Img) : x.withStack.sz = (npages x.sz + (USERSTACK + 1)) * PGSIZE :=
  Nat.max_eq_right (Nat.mul_le_mul_right _ (Nat.le_add_right _ _))

theorem succeeds_addStack (hnd : s.ram.kmem.ledger.free.Nodup)
    (h : Built im s.proc.pid tf s.ram.kmem s.ram.mem r pt x none) (entry : UInt64) :
    Succeeds (addStack im s.proc.pid entry pt (PGROUNDUP x.sz)) (s.left r) fun o s' =>
      match o with
      | none => GaveUp s s'
      | some new => ∃ r', s' = s.left r' ∧ new.sz = x.withStack.sz ∧ new.entry = entry ∧
          Built im s.proc.pid tf s.ram.kmem s.ram.mem r' new.pagetable x.withStack
            (some (npages x.sz)) := by
  have hroom : npages x.sz ≤ 67108862 := h.space.shape.room
  have hnew : (npages x.sz * PGSIZE + (USERSTACK + 1) * PGSIZE) % 2 ^ 64 =
      (npages x.sz + (USERSTACK + 1)) * PGSIZE := by
    show (npages x.sz * 4096 + 3 * 4096) % 18446744073709551616 = (npages x.sz + 3) * 4096
    omega
  rw [addStack, pgroundup_eq, hnew]
  refine (succeeds_onRam (s := s.left r) (succeeds_grow hnd h.rounded)).seq ?_
  rintro ⟨sz1, pt1⟩ _ ⟨r1, rfl, ⟨h0, hb⟩ | ⟨h0, hsz, hb⟩⟩
  · simp only at h0 hb ⊢
    rw [if_pos h0]
    refine (succeeds_bad_left hb).mono fun o s' ⟨ho, hg⟩ => ?_
    rwa [ho]
  · simp only at h0 hsz hb ⊢
    rw [if_neg h0]
    have hsz : sz1 = (npages x.sz + (USERSTACK + 1)) * PGSIZE := hsz.trans (withStack_sz x)
    have hguard : sz1 - (USERSTACK + 1) * PGSIZE = npages x.sz * PGSIZE := by
      rw [hsz, ← Nat.sub_mul, Nat.add_sub_cancel]
    have hin : npages x.sz < npages (x.rounded.grow ((npages x.sz + (USERSTACK + 1)) * PGSIZE)
        stackPerm).sz := by
      have hmax : (x.rounded.grow ((npages x.sz + (USERSTACK + 1)) * PGSIZE) stackPerm).sz =
          (npages x.sz + (USERSTACK + 1)) * PGSIZE := withStack_sz x
      have hsize : (x.rounded.grow ((npages x.sz + (USERSTACK + 1)) * PGSIZE) stackPerm).sz ≤
          TRAPFRAME := hb.space.size
      rw [hmax] at hsize
      have hsize : (npages x.sz + 3) * 4096 ≤ 274877898752 := hsize
      rw [hmax, npages_mul (show npages x.sz + 3 ≤ 67108864 by omega)]
      omega
    rw [hguard]
    refine (succeeds_onRam (hb.guard hin)).seq ?_
    rintro pt2 _ ⟨r2, rfl, hb2⟩
    exact Succeeds.pure ⟨r2, rfl, hsz.trans (withStack_sz x).symm, rfl, hb2⟩

theorem succeeds_prepare {file : Option (List UInt8)} (h : Ready im s)
    (hfile : ∀ data, file = some data → data.length < 2 ^ 31) :
    Succeeds (prepare im file) s fun o s' =>
      match o with
      | none => GaveUp s s'
      | some new => ∃ data r, file = some data ∧ s' = s.left r ∧ Prepared im s data new r := by
  refine Succeeds.read (Succeeds.write ?_)
  cases file with
  | none =>
    exact Succeeds.write (Succeeds.pure ⟨⟨s.ram, rfl⟩, Moves.refl _ _ _, SameOff.refl _ _⟩)
  | some data =>
    refine Succeeds.write (Succeeds.write ?_)
    have hearly : Succeeds (bad (α := NewImage) im none 0 true) (s.entered s.ram) fun o s' =>
        match o with
        | none => GaveUp s s'
        | some new => ∃ data' r, some data = some data' ∧ s' = s.left r ∧
            Prepared im s data' new r :=
      (succeeds_bad_early h.unlocked (Moves.refl _ _ _) (SameOff.refl _ _)).mono
        fun o s' ⟨ho, hg⟩ => by
        rwa [ho]
    simp only
    split
    · exact hearly
    split
    · exact hearly
    refine (succeeds_onRam (s := s.entered s.ram) (succeeds_onKmem
      (succeeds_procPagetable h.allOk))).seq ?_
    rintro o _ ⟨r1, rfl, hm1, ho⟩
    cases o with
    | none =>
      refine (succeeds_bad_early h.unlocked ho (hm1 ▸ SameOff.refl _ _)).mono fun o s' ⟨ho, hg⟩ => ?_
      rwa [ho]
    | some pt =>
      have hb := built_empty h.allOk h.room hm1 ho.1 ho.2
      refine (succeeds_onRam (s := s.entered r1) (succeeds_loadFrom h.free_nodup
        (hfile data rfl) (elfOf data).phnum.toNat (elfOf data).phoff.toUInt32 hb)).seq ?_
      rintro ⟨ok, pt2, sz⟩ _ ⟨r2, rfl, x, hsz, hb2, hall⟩
      obtain rfl : sz = x.sz := hsz
      cases ok with
      | false =>
        refine (succeeds_bad_entered h.unlocked hb2).mono fun o s' ⟨ho, hg⟩ => ?_
        rwa [ho]
      | true =>
        obtain ⟨hchecked, hx⟩ := hall rfl
        subst hx
        refine Succeeds.write (Succeeds.write ?_)
        have hleft : (⟨r2, ⟨false, s.ip.ref⟩, s.outstanding, s.proc⟩ : Sys) = s.left r2 := by
          rw [← h.unlocked]
          rfl
        show Succeeds _ (⟨r2, ⟨false, s.ip.ref⟩, s.outstanding, s.proc⟩ : Sys) _
        rw [hleft]
        refine (succeeds_addStack h.free_nodup hb2 (elfOf data).entry).mono ?_
        rintro (_ | new) s' hnew
        · exact hnew
        · obtain ⟨r', hs', hsz, hentry, hb'⟩ := hnew
          exact ⟨data, r', rfl, hs', hb', hsz, hb2.space.size, hentry, hchecked⟩

/-! ## exec -/

section

variable {s₀ : Sys} {new : NewImage}

theorem Prepared.size_le (h : Prepared im s data new r) :
    (npages (imageOf data).sz + 3) * 4096 ≤ 274877898752 := by
  have hsize : (imageOf data).withStack.sz ≤ TRAPFRAME := h.built.space.size
  rwa [withStack_sz] at hsize

theorem Prepared.top_eq (h : Prepared im s data new r) :
    (imageOf data).withStack.top = (imageOf data).withStack.sz := by
  have hsize := h.size_le
  have hnp : npages (imageOf data).withStack.sz = npages (imageOf data).sz + 3 := by
    rw [withStack_sz]
    exact npages_mul (show npages (imageOf data).sz + 3 ≤ 67108864 by omega)
  rw [Img.top, hnp, withStack_sz]

/-- The stack has the two pages above the guard page. -/
theorem Prepared.stack (h : Prepared im s data new r) :
    Stack new.pagetable ((imageOf data).withStack.sz - USERSTACK * PGSIZE)
      (imageOf data).withStack.top := by
  have hsize := h.size_le
  have hsz : (imageOf data).withStack.sz = (npages (imageOf data).sz + 3) * 4096 := withStack_sz _
  refine ⟨?_, h.built.top_le, fun va hva => ?_⟩
  · rw [hsz]
    show 0 < (npages (imageOf data).sz + 3) * 4096 - 2 * 4096
    omega
  · rw [h.built.writable_iff]
    refine ⟨fun hw => hw.1, fun hlt => ⟨hlt, ?_⟩⟩
    -- a page above the guard page is a stack page
    have hpage : npages (imageOf data).sz < va / PGSIZE := by
      rw [hsz] at hva
      have hva : (npages (imageOf data).sz + 3) * 4096 - 2 * 4096 ≤ va := hva
      show npages (imageOf data).sz < va / 4096
      omega
    have hperm : (imageOf data).withStack.perm (va / PGSIZE) = userPerm stackPerm := by
      have hround : npages ((imageOf data).rounded.sz) = npages (imageOf data).sz :=
        npages_mul (show npages (imageOf data).sz ≤ 67108864 by omega)
      show update _ (npages (imageOf data).sz) _ (va / PGSIZE) = _
      rw [update_of_ne (by omega)]
      show (if va / PGSIZE < npages (imageOf data).rounded.sz then _ else _) = _
      rw [hround, if_neg (by omega)]
    rw [hperm]
    exact ⟨rfl, rfl⟩

end

/-- The process after `exec`: the image of the file with the arguments on its stack. -/
structure Execed (im : Image) (s : Sys) (path : CString) (data : List UInt8) (argv : List CString)
    (s' : Sys) : Prop where
  fits : Fits ((imageOf data).withStack.sz - USERSTACK * PGSIZE) (imageOf data).withStack.sz argv
  ip : s'.ip = s.ip
  outstanding : s'.outstanding = s.outstanding
  regs : s'.proc.regs = ⟨(elfOf data).entry, (arrayAt (imageOf data).withStack.sz argv).toNat,
    (arrayAt (imageOf data).withStack.sz argv).toNat⟩
  sz : s'.proc.sz = (imageOf data).withStack.sz
  size : (imageOf data).sz ≤ TRAPFRAME
  shape : Shape im s'.proc.pagetable s.proc.trapframe (npages (imageOf data).withStack.sz)
    (some (npages (imageOf data).sz))
  shows : Shows s'.proc.pagetable s'.ram.mem ((imageOf data).withStack.withArgs argv)
  checked : ∀ ph ∈ segmentsOf data, Checked ph
  ready : Ready im s'

/-- The commit: the process has the new image, and the old one is freed. -/
theorem succeeds_commit {new : NewImage} {argv : List CString} (path : CString) {r0 : Ram}
    (h : Ready im s) (hp : Prepared im s data new r0)
    (hb : Built im s.proc.pid s.proc.trapframe s.ram.kmem s.ram.mem r new.pagetable
      ((imageOf data).withStack.withArgs argv) (some (npages (imageOf data).sz)))
    (hfits : Fits ((imageOf data).withStack.sz - USERSTACK * PGSIZE) (imageOf data).withStack.sz argv) :
    Succeeds (onRam (onKmem (procFreepagetable im s.proc.pagetable s.proc.sz)))
      ⟨r, s.ip, s.outstanding, { s.proc with
        regs := ⟨new.entry, (arrayAt (imageOf data).withStack.sz argv).toNat,
          (arrayAt (imageOf data).withStack.sz argv).toNat⟩
        name := safestrcpy (lastOf path.chars) 16
        pagetable := new.pagetable
        sz := new.sz }⟩ fun _ s' => Execed im s path data argv s' := by
  obtain ⟨g, hsp⟩ := h.space
  -- the pages of the old image and of the new one
  have hboth : Moves s.proc.pid s.ram.kmem.ledger (owned s.proc.pagetable s.proc.sz) r.kmem.ledger
      (owned s.proc.pagetable s.proc.sz + owned new.pagetable new.sz) := by
    have := hb.moves.frame (owned s.proc.pagetable s.proc.sz)
    rw [zero_add, add_comm] at this
    rw [hp.sz]
    rwa [show ((imageOf data).withStack.withArgs argv).sz = (imageOf data).withStack.sz from
      pushStrings_sz ..] at this
  have hok := hsp.ok.moves hboth
  refine (succeeds_onRam (succeeds_onKmem
    (succeeds_procFreepagetable hsp.shape hsp.size hok.left))).mono ?_
  rintro _ _ ⟨r', rfl, hm, hmv⟩
  have hsz : ((imageOf data).withStack.withArgs argv).sz = new.sz := by
    rw [hp.sz]
    exact pushStrings_sz ..
  have hall := hboth.trans (hmv s.proc.pid (owned new.pagetable new.sz))
  refine ⟨hfits, rfl, rfl, by rw [hp.entry], hp.sz, hp.size, ?_, ?_, hp.checked,
    ⟨⟨some (npages (imageOf data).sz), ?_⟩, ?_, h.unlocked⟩⟩
  · have := hb.space.shape
    rwa [hsz, hp.sz] at this
  · rw [show r'.mem = r.mem from hm]
    exact hb.shows
  · have hshape := hb.space.shape
    rw [hsz] at hshape
    refine hsp.moved hshape ?_ hall
    rw [← hsz]
    exact size_le_maxva hb.space.size
  · show (r'.kmem.ledger.free + owned new.pagetable new.sz).Nodup
    rw [hall.same]
    exact h.nodup

theorem succeeds_finish (path : CString) {new : NewImage} {argv : List CString} (h : Ready im s)
    (hp : Prepared im s data new r) (hargs : argv.length < MAXARG) :
    Succeeds (finish im path argv new) (s.left r) fun o s' =>
      Fits (new.sz - USERSTACK * PGSIZE) new.sz argv ∧ o = some argv.length ∧
        Execed im s path data argv s' ∨
      ¬ Fits (new.sz - USERSTACK * PGSIZE) new.sz argv ∧ o = none ∧ GaveUp s s' := by
  obtain ⟨pt, sz, entry⟩ := new
  obtain rfl : sz = (imageOf data).withStack.sz := hp.sz
  refine (succeeds_onRam (succeeds_execStack h.free_nodup hp.built hp.top_eq
    hp.stack hargs)).seq ?_
  rintro o _ ⟨r1, rfl, ⟨hfits, rfl, hb⟩ | ⟨hno, rfl, x', hx', hb⟩⟩
  · refine Succeeds.read (Succeeds.write ?_)
    refine (succeeds_commit path h hp hb hfits).seq fun _ s' hs' => ?_
    exact Succeeds.pure (.inl ⟨hfits, rfl, hs'⟩)
  · have := succeeds_bad_left (α := Nat) hb
    rw [hx'] at this
    exact this.mono fun o s' ⟨ho, hg⟩ => .inr ⟨hno, ho, hg⟩

theorem succeeds_exec (path : CString) {file : Option (List UInt8)} {argv : List CString}
    (h : Ready im s) (hfile : ∀ data, file = some data → data.length < 2 ^ 31)
    (hargs : argv.length < MAXARG) :
    Succeeds (exec im path file argv) s fun o s' =>
      match o with
      | none => GaveUp s s'
      | some argc => argc = argv.length ∧ ∃ data, file = some data ∧ Execed im s path data argv s' := by
  refine (succeeds_prepare h hfile).seq ?_
  rintro (_ | new) s1 hprep
  · exact Succeeds.pure hprep
  obtain ⟨data, r, hdata, rfl, hp⟩ := hprep
  refine (succeeds_finish path h hp hargs).mono ?_
  rintro o s' (⟨-, rfl, hs'⟩ | ⟨-, rfl, hg⟩)
  · exact ⟨rfl, data, hdata, hs'⟩
  · exact hg

/-! ## Processes that call `exec` -/

/-- A process of the system can call `exec` at any time. -/
theorem ready_of_inv {y : Mem.Sys} {p : Fin NPROC} (hinv : Mem.Inv im y)
    (hrun : (y.proc p).state = .runnable) (hk : s.ram.kmem = y.kmem)
    (htf : (y.proc p).trapframe = some s.proc.trapframe)
    (hpt : (y.proc p).pagetable = some s.proc.pagetable) (hsz : s.proc.sz = (y.proc p).sz)
    (hun : s.ip.locked = false) : Ready im s := by
  obtain ⟨tf, pt, htf', hpt', hsh, hsize, hpages⟩ := (hinv.proc p).of_runnable hrun
  obtain rfl : s.proc.trapframe = tf := Option.some.inj (htf.symm.trans htf')
  obtain rfl : s.proc.pagetable = pt := Option.some.inj (hpt.symm.trans hpt')
  have hsp := (hinv.owns 0).space hpages hsh hsize
  have hnd := (hinv.owns 0).nodup
  rw [inUse_eq y p, hpages, zero_add, cons_add, add_cons, nodup_cons,
    ← add_assoc] at hnd
  refine ⟨⟨(y.proc p).guard, ?_⟩, ?_, hun⟩
  · rwa [hk, hsz]
  · rw [hk, hsz]
    exact (nodup_add.mp hnd.2).1

/-- A process of the system as `exec` sees it, when its user pages hold zeros. -/
def atCall (y : Mem.Sys) (p : Fin NPROC) : Option Sys := do
  let tf ← (y.proc p).trapframe
  let pt ← (y.proc p).pagetable
  return ⟨⟨y.kmem, fun _ => 0⟩, ⟨false, 0⟩, 0,
    ⟨(y.proc p).pid, tf, ⟨0, 0, 0⟩, pt, (y.proc p).sz, []⟩⟩

theorem ready_booted (h : atCall booted.sys 0 = some s) : Ready smallImage s := by
  unfold atCall at h
  cases htf : (booted.sys.proc 0).trapframe with
  | none =>
    rw [htf] at h
    cases h
  | some tf =>
    cases hpt : (booted.sys.proc 0).pagetable with
    | none =>
      rw [htf, hpt] at h
      cases h
    | some pt =>
      rw [htf, hpt] at h
      cases h
      exact ready_of_inv (inv_init booted_init) (by decide +kernel) rfl htf hpt rfl rfl

/-- A program of four bytes in one segment, with four more zeros. -/
def tinyElf : List UInt8 :=
  leBytes 4 0x464C457F ++ List.replicate 20 0 ++ leBytes 8 4 ++ leBytes 8 64 ++ List.replicate 16 0 ++
  leBytes 2 1 ++ List.replicate 6 0 ++
  leBytes 4 1 ++ leBytes 4 5 ++ leBytes 8 120 ++ leBytes 8 0 ++ leBytes 8 0 ++ leBytes 8 4 ++
  leBytes 8 8 ++ leBytes 8 4096 ++ [1, 2, 3, 4]

/-- The path `/sh` and the arguments `sh` and `x`. -/
def shPath : CString := ⟨[47, 115, 104], by decide⟩
def shArgs : List CString := [⟨[115, 104], by decide⟩, ⟨[120], by decide⟩]

/-- What a call of the first process returns. -/
theorem call_of_view (file : Option (List UInt8)) (argv : List CString) {o : Option Nat}
    (h : ((atCall booted.sys 0).bind fun s =>
      (exec smallImage shPath file argv s).toOption.map Prod.fst) = some o) :
    ∃ s s', Ready smallImage s ∧ exec smallImage shPath file argv s = .ok (o, s') := by
  obtain ⟨s, hs, h⟩ := Option.bind_eq_some_iff.mp h
  obtain ⟨⟨o', s'⟩, hrun, rfl⟩ := Option.map_eq_some_iff.mp h
  refine ⟨s, s', ready_booted hs, ?_⟩
  cases he : exec smallImage shPath file argv s with
  | error e =>
    rw [he] at hrun
    cases hrun
  | ok x =>
    rw [he] at hrun
    cases hrun
    rfl

/-! ## All or nothing -/

/-- User memory that a failed call did not touch. -/
theorem GaveUp.user_memory {s' : Sys} (h : Ready im s) (hg : GaveUp s s') {va : Nat}
    (hva : va < npages s.proc.sz * PGSIZE) :
    byteAt s.proc.pagetable s'.ram.mem va = byteAt s.proc.pagetable s.ram.mem va := by
  obtain ⟨g, hsp⟩ := h.space
  refine hg.mem _ ?_
  rw [rounddown_phys hsp hva]
  have hi : va / PGSIZE < npages s.proc.sz := (Nat.div_lt_iff_lt_mul (by decide)).mpr hva
  refine fun hin => disjoint_left.mp (nodup_add.mp h.nodup).2.2 hin ?_
  exact mem_add.mpr (.inr (mem_frames (Nat.zero_le _) (by omega)))

/-- `exec` ends without a panic, whatever the file holds and whichever allocations fail;
if it returns -1 the process, its memory, the inode and the log are what they were, and
every page that was free is free again. -/
theorem exec_all_or_nothing (im : Image) (s : Sys) (h : Ready im s) (path : CString)
    (file : Option (List UInt8)) (hfile : ∀ data, file = some data → data.length ≤ MAXFILE * BSIZE)
    (argv : List CString) (hargs : argv.length < MAXARG) :
    ∃ o s', exec im path file argv s = .ok (o, s') ∧ (o = none →
      s'.proc = s.proc ∧ s'.ip = s.ip ∧ s'.outstanding = s.outstanding ∧
      s'.ram.kmem.freelist.Perm s.ram.kmem.freelist ∧
      ∀ va < npages s.proc.sz * PGSIZE,
        byteAt s.proc.pagetable s'.ram.mem va = byteAt s.proc.pagetable s.ram.mem va) := by
  have hshort : ∀ data, file = some data → data.length < 2 ^ 31 := fun data hd =>
    lt_of_le_of_lt (hfile data hd) (by decide)
  obtain ⟨o, s', heq, ho⟩ := succeeds_exec path h hshort hargs
  refine ⟨o, s', heq, ?_⟩
  rintro rfl
  have hg : GaveUp s s' := ho
  obtain ⟨r, rfl⟩ := hg.same
  refine ⟨rfl, rfl, rfl, ?_, fun va hva => hg.user_memory h hva⟩
  have hfree := hg.moves.same
  rw [add_zero, add_zero] at hfree
  exact coe_eq_coe.mp hfree

set_option maxRecDepth 20000 in
/-- The last byte of the segment is missing. -/
theorem exec_all_or_nothing_short : ∃ s s', Ready smallImage s ∧
    exec smallImage shPath (some tinyElf.dropLast) shArgs s = .ok (none, s') ∧
    s'.proc = s.proc ∧ s'.ip = s.ip ∧ s'.outstanding = s.outstanding ∧
    s'.ram.kmem.freelist.Perm s.ram.kmem.freelist := by
  obtain ⟨s, s', hr, hrun⟩ := call_of_view (some tinyElf.dropLast) shArgs (o := none)
    (by decide +kernel)
  have hfile : ∀ data, some tinyElf.dropLast = some data → data.length ≤ MAXFILE * BSIZE := by
    intro data hd
    cases hd
    decide +kernel
  obtain ⟨o, s1, hrun1, hnone⟩ := exec_all_or_nothing smallImage s hr shPath (some tinyElf.dropLast)
    hfile shArgs (by decide)
  rw [hrun] at hrun1
  cases hrun1
  obtain ⟨h1, h2, h3, h4, -⟩ := hnone rfl
  exact ⟨s, s', hr, hrun, h1, h2, h3, h4⟩

end Xv6.Exec
