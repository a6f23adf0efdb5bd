import OsSuite.Sdhci

/-! The disk of the three platforms: an SD card behind the SPI bus or behind the host controller, or
the ROM where there is no card. What a program reads is the same. -/

namespace OsSuite.SdCard

inductive Platform where
  | hardware
  | qemu
deriving DecidableEq

inductive DiskType where
  | sdCard
  | flashRom
deriving DecidableEq

/-- The machine as the disk driver sees it, with the static variable `type` of the driver. -/
structure Machine where
  platform : Platform
  type : DiskType
  link : Link
  host : Sdhci
  rom : UInt32 → UInt8

/-- What the devices leave open, and the place of the aligned buffer. -/
structure Environment where
  timing : Timing
  polls : Polls
  alignedBuf : UInt32

def flashRomBase : Platform → UInt32
  | .qemu => 0x22000000
  | .hardware => 0x20400000

def diskInit (env : Environment) (fuel : Nat) (m : Machine) : Except Stop Machine :=
  if m.platform = .qemu then do
    let host ← sdhciInit env.polls fuel m.host
    return { m with host := host }
  else do
    let (r, link) ← sdspiInit env.timing fuel m.link
    return { m with link := link, type := if r = 0 then .sdCard else .flashRom }

/-- One round of the loop of `disk_read`. -/
def readBlock (env : Environment) (fuel : Nat) (m : Machine) (blockNo : UInt32) : Except Stop (List UInt8 × Machine) :=
  if m.platform = .hardware then do
    let (dst, link) ← sdspiRead env.timing fuel m.link blockNo
    return (dst, { m with link := link })
  else do
    let (dst, host) ← sdhciRead env.polls fuel env.alignedBuf m.host blockNo
    return (dst, { m with host := host })

/-- The bytes that go to `dst`. -/
def diskRead (env : Environment) (fuel : Nat) (m : Machine) (blockNo nblocks : UInt32) :
    Except Stop (List UInt8 × Machine) :=
  if m.type = .flashRom then
    let src := flashRomBase m.platform + blockNo * 512
    .ok ((List.range (nblocks * 512).toNat).map fun x => m.rom (src + UInt32.ofNat x), m)
  else
    (List.range nblocks.toNat).foldlM (fun s i => do
      let (dst, m) ← readBlock env fuel s.2 (blockNo + UInt32.ofNat i)
      return (s.1 ++ dst, m)) ([], m)

structure Request where
  blockNo : UInt32
  nblocks : UInt32

def Request.bytes (image : Nat → UInt8) (r : Request) : List UInt8 :=
  (List.range (512 * r.nblocks.toNat)).map fun x => image (512 * r.blockNo.toNat + x)

/-- The start of the system, and the reads that it makes. -/
def bootAndRead (env : Environment) (fuel : Nat) (m : Machine) (requests : List Request) :
    Except Stop (List (List UInt8) × Machine) := do
  let m ← diskInit env fuel m
  requests.foldlM (fun s r => do
    let (dst, m) ← diskRead env fuel s.2 r.blockNo r.nblocks
    return (s.1 ++ [dst], m)) ([], m)

/-- The device that the driver chooses holds the image of `size` blocks. -/
structure Machine.Serves (m : Machine) (image : Nat → UInt8) (size : Nat) : Prop where
  type : m.platform = .qemu → m.type = .sdCard
  host : m.platform = .qemu → m.host.In .transfer image
  link : m.platform = .hardware → m.type = .sdCard → m.link.At .ready fun n x => image (512 * n.toNat + x.val)
  rom : m.type = .flashRom → ∀ a < 512 * size, m.rom (flashRomBase m.platform + UInt32.ofNat a) = image a

/-- The machine when it is switched on. All that it has holds the image. -/
structure Machine.Holds (m : Machine) (image : Nat → UInt8) (size : Nat) : Prop where
  type : m.type = .sdCard
  out : m.link.out = []
  cmd : m.link.cmd = []
  card : m.link.card.block = fun n x => image (512 * n.toNat + x.val)
  host : m.host.image = image
  rom : ∀ a < 512 * size, m.rom (flashRomBase m.platform + UInt32.ofNat a) = image a

section Reads

variable {env : Environment} {m : Machine} {image : Nat → UInt8} {size : Nat}

theorem diskInit_ends (ht : env.timing.Documented) (h : m.Holds image size) :
    ∃ m', Ends (diskInit env · m) m' ∧ m'.Serves image size := by
  unfold diskInit
  by_cases hplatform : m.platform = .qemu
  · obtain ⟨host, hends, hin⟩ := @sdhciInit_ends env.polls m.host image h.host
    simp only [if_pos hplatform]
    refine ⟨_, hends.bind (ends_ok _), fun _ => h.type, fun _ => hin, fun hhardware => ?_, fun hrom => ?_⟩
    · rw [hplatform] at hhardware
      cases hhardware
    · rw [h.type] at hrom
      cases hrom
  · simp only [if_neg hplatform]
    cases hinserted : m.link.inserted with
    | true =>
      obtain ⟨link, hends, hat⟩ := sdspiInit_ends ht hinserted h.out h.cmd h.card
      refine ⟨_, hends.bind (ends_ok _), fun hqemu => absurd hqemu hplatform, fun hqemu => absurd hqemu hplatform,
        fun _ _ => hat, fun hrom => ?_⟩
      cases hrom
    | false =>
      simp only [sdspiInit_empty hinserted]
      refine ⟨_, ends_ok _, fun hqemu => absurd hqemu hplatform, fun hqemu => absurd hqemu hplatform,
        fun _ hcard => ?_, fun _ => h.rom⟩
      cases hcard

theorem mul_blockSize {n : UInt32} (hn : n.toNat ≤ 2 ^ 22) : (n * 512).toNat = 512 * n.toNat := by
  have hsize : (512 : UInt32).toNat = 512 := rfl
  rw [UInt32.toNat_mul, hsize, Nat.mul_comm]
  exact Nat.mod_eq_of_lt (by omega)

def blockBytes (image : Nat → UInt8) (n : Nat) : List UInt8 := List.ofFn fun x : Fin 512 => image (512 * n + x.val)

theorem blockBytes_range (image : Nat → UInt8) (b n : Nat) :
    (List.range n).flatMap (fun i => blockBytes image (b + i)) =
      (List.range (512 * n)).map fun x => image (512 * b + x) := by
  induction n with
  | zero => rfl
  | succ n ih =>
    have hlast : blockBytes image (b + n) = (List.range 512).map fun x => image (512 * b + (512 * n + x)) := by
      refine List.ext_getElem (by rw [blockBytes, List.length_ofFn, List.length_map, List.length_range]) fun i hi _ => ?_
      rw [List.getElem_map, List.getElem_range]
      simp only [blockBytes, List.getElem_ofFn]
      congr 1
      omega
    rw [List.range_succ, List.flatMap_append, ih, Nat.mul_succ, List.range_add, List.map_append, List.map_map,
      List.flatMap_singleton, hlast]
    rfl

theorem readBlock_ends (ht : env.timing.Documented) (h : m.Serves image size) (hcard : m.type = .sdCard)
    {blockNo : UInt32} (hblock : blockNo.toNat ≤ 2 ^ 22) :
    ∃ m', Ends (readBlock env · m blockNo) (blockBytes image blockNo.toNat, m') ∧ m'.Serves image size ∧
      m'.type = .sdCard := by
  unfold readBlock
  by_cases hplatform : m.platform = .hardware
  · obtain ⟨link, hends, hat⟩ := sdspiRead_ends ht (h.link hplatform hcard) blockNo
    change Ends _ (blockBytes image blockNo.toNat, link) at hends
    simp only [if_pos hplatform]
    refine ⟨{ m with link := link }, hends.bind ?_, ⟨h.type, h.host, fun _ _ => hat, h.rom⟩, hcard⟩
    dsimp only
    exact ends_ok _
  · have hqemu : m.platform = .qemu := by
      cases hm : m.platform with
      | hardware => exact absurd hm hplatform
      | qemu => rfl
    obtain ⟨host, hends, hin⟩ := sdhciRead_ends env.polls env.alignedBuf (h.host hqemu) blockNo
    rw [mul_blockSize hblock] at hends
    change Ends _ (blockBytes image blockNo.toNat, host) at hends
    simp only [if_neg hplatform]
    refine ⟨{ m with host := host }, hends.bind ?_, ⟨h.type, fun _ => hin, h.link, h.rom⟩, hcard⟩
    dsimp only
    exact ends_ok _

/-- What is left of the loop of `disk_read`. -/
def BlocksLeft (image : Nat → UInt8) (size : Nat) (blockNo : UInt32) (total : List UInt8) (q : List Nat)
    (s : List UInt8 × Machine) : Prop :=
  s.2.Serves image size ∧ s.2.type = .sdCard ∧ (∀ i ∈ q, blockNo.toNat + i < size) ∧
    s.1 ++ q.flatMap (fun i => blockBytes image (blockNo.toNat + i)) = total

theorem BlocksLeft.round {blockNo : UInt32} {total : List UInt8} {i : Nat} {q : List Nat} {s : List UInt8 × Machine}
    (ht : env.timing.Documented) (hsize : size ≤ 2 ^ 22) (h : BlocksLeft image size blockNo total (i :: q) s) :
    ∃ s', Ends (fun fuel => (do
      let (dst, m) ← readBlock env fuel s.2 (blockNo + UInt32.ofNat i)
      return (s.1 ++ dst, m) : Except Stop (List UInt8 × Machine))) s' ∧ BlocksLeft image size blockNo total q s' := by
  obtain ⟨dst, m⟩ := s
  obtain ⟨hserves, htype, hin, hbytes⟩ := h
  have hi : blockNo.toNat + i < size := hin i List.mem_cons_self
  have hblock : (blockNo + UInt32.ofNat i).toNat = blockNo.toNat + i := by
    rw [UInt32.toNat_add, UInt32.toNat_ofNat']
    omega
  obtain ⟨m', hends, hserves', htype'⟩ := readBlock_ends ht hserves htype
    (show (blockNo + UInt32.ofNat i).toNat ≤ 2 ^ 22 by omega)
  rw [hblock] at hends
  refine ⟨_, hends.bind (ends_ok _), hserves', htype', fun j hj => hin j (List.mem_cons_of_mem i hj), ?_⟩
  rw [← hbytes, List.flatMap_cons, List.append_assoc]

theorem Machine.Serves.rom_bytes (hsize : size ≤ 2 ^ 22) (h : m.Serves image size) (hrom : m.type = .flashRom) (r : Request)
    (hr : r.blockNo.toNat + r.nblocks.toNat ≤ size) :
    (List.range (r.nblocks * 512).toNat).map (fun x =>
      m.rom (flashRomBase m.platform + r.blockNo * 512 + UInt32.ofNat x)) = r.bytes image := by
  rw [mul_blockSize (by omega), Request.bytes]
  refine List.map_congr_left fun x hx => ?_
  have hx' : x < 512 * r.nblocks.toNat := List.mem_range.mp hx
  have haddr : r.blockNo * 512 + UInt32.ofNat x = UInt32.ofNat (512 * r.blockNo.toNat + x) := by
    rw [← UInt32.toNat_inj, UInt32.toNat_add, mul_blockSize (by omega), UInt32.toNat_ofNat', UInt32.toNat_ofNat']
    omega
  rw [UInt32.add_assoc, haddr]
  exact h.rom hrom _ (by omega)

theorem diskRead_ends (ht : env.timing.Documented) (hsize : size ≤ 2 ^ 22) (h : m.Serves image size) (r : Request)
    (hr : r.blockNo.toNat + r.nblocks.toNat ≤ size) :
    ∃ m', Ends (diskRead env · m r.blockNo r.nblocks) (r.bytes image, m') ∧ m'.Serves image size := by
  unfold diskRead
  by_cases hrom : m.type = .flashRom
  · refine ⟨m, ?_, h⟩
    simp only [if_pos hrom, h.rom_bytes hsize hrom r hr]
    exact ends_ok _
  · have hcard : m.type = .sdCard := by
      cases hm : m.type with
      | sdCard => rfl
      | flashRom => exact absurd hm hrom
    have hstart : BlocksLeft image size r.blockNo (r.bytes image) (List.range r.nblocks.toNat) ([], m) := by
      refine ⟨h, hcard, fun i hi => ?_, blockBytes_range image r.blockNo.toNat r.nblocks.toNat⟩
      have := List.mem_range.mp hi
      omega
    have hround : ∀ i q s, BlocksLeft image size r.blockNo (r.bytes image) (i :: q) s → _ :=
      fun _ _ _ hleft => hleft.round ht hsize
    simp only [if_neg hrom]
    obtain ⟨⟨dst, m'⟩, hends, hserves, -, -, hdst⟩ := ends_foldlM hround (List.range r.nblocks.toNat) hstart
    have hdst' : dst = r.bytes image := by simpa using hdst
    subst hdst'
    exact ⟨m', hends, hserves⟩

def RequestsLeft (image : Nat → UInt8) (size : Nat) (total : List (List UInt8)) (q : List Request)
    (s : List (List UInt8) × Machine) : Prop :=
  s.2.Serves image size ∧ (∀ r ∈ q, r.blockNo.toNat + r.nblocks.toNat ≤ size) ∧
    s.1 ++ q.map (Request.bytes image) = total

end Reads

/-- A card of one block that answers at its own pace. -/
def sampleMachine (platform : Platform) (inserted : Bool) : Machine where
  platform := platform
  type := .sdCard
  link := ⟨⟨fun n x => UInt8.ofNat (512 * n.toNat + x.val), .off, 0⟩, inserted, false, [], []⟩
  host := ⟨fun _ => 0, UInt8.ofNat, .idle, 0, 0, 0, 0, 0, 0, 0, 0, 0⟩
  rom := fun a => UInt8.ofNat (a - flashRomBase platform).toNat

def sampleEnvironment : Environment where
  timing := ⟨fun n => n % 9, fun n => 3 * n, fun _ => (0xAB, 0xFF), fun n => List.replicate n 0, 2⟩
  polls := ⟨4, fun n => n, fun n => 2 * n, 0x12340000⟩
  alignedBuf := 0x80000200

theorem sampleEnvironment_documented : sampleEnvironment.timing.Documented := by
  refine ⟨fun n => (Nat.mod_lt n (by decide)).trans (by decide), fun n b hb => ?_⟩
  rw [List.eq_of_mem_replicate hb]
  decide

theorem sampleMachine_holds (platform : Platform) (inserted : Bool) :
    (sampleMachine platform inserted).Holds UInt8.ofNat 1 := by
  refine ⟨rfl, rfl, rfl, rfl, rfl, fun a ha => ?_⟩
  have hback : (flashRomBase platform + UInt32.ofNat a - flashRomBase platform).toNat = a := by
    rw [UInt32.add_comm, UInt32.add_sub_cancel]
    exact UInt32.toNat_ofNat_of_lt' (ha.trans (by decide))
  exact congrArg UInt8.ofNat hback

end OsSuite.SdCard
