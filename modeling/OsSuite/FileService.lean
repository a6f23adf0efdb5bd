import OsSuite.Delivery
import OsSuite.Installed
import OsSuite.Service

/-! `file_read` of any process, through the kernel and the file server. -/

namespace OsSuite.Grass

open Earth (Pid)
open Rendezvous
open Treedisk (Stop Block BlockNo)
open Mkfs (blockByte)

variable {env : Env} {k : Kernel} {read : UInt32 → BlockNo → Except Stop Block} {p : Pid} {q m : Content}
  {f : Nat → Server Pid Content Unit} {a c d : Nat}

def fileOk : UInt32 := 0
def fileError : UInt32 := 1

/-- The reply to FILE_READ, where `fs->read` is `read`. It stands where the request was. -/
inductive FileReply (read : UInt32 → BlockNo → Except Stop Block) (q m : Content) : Prop where
  | ok (block : Block) (hread : read (word q 4) (word q 8) = .ok block) (hstatus : word m 0 = fileOk)
    (hblock : ∀ x < 512, byteAt m (4 + x) = blockByte block x)
  | error (hread : read (word q 4) (word q 8) = .error .fail) (hstatus : word m 0 = fileError)
    (hblock : ∀ x < 512, byteAt m (4 + x) = byteAt q (4 + x))

/-- One round of the loop of sys_file.c. -/
def fileServer (read : UInt32 → BlockNo → Except Stop Block) : Handler Content Unit := fun _ q _ reply =>
  handleFile q = .reply ∧ ∃ m, reply = some m ∧ FileReply read q m

/-- What `file_read` makes of the reply: its value, and the block that it fills. -/
def fileReadValue (m : Content) : Int := if word m 0 = fileOk then 0 else -1

def fileReadBlock (m : Content) (x : Fin 512) : UInt8 := byteAt m (4 + x.val)

/-- The reply that ends a `file_read` answers its request. -/
theorem file_read_reply (h : Run env Unwrapped k) (hserver : Serves (fileServer read) gpidFile () k.trace f)
    (hcall : Called k.trace gpidFile p q a c d) :
    ∃ m, k.trace[d]? = some (.meet gpidFile p m) ∧ FileReply read q m := by
  have hvalid := (h.sound fun _ _ hwrap => hwrap).synced.valid
  obtain ⟨b, m, -, -, hexchange⟩ := hvalid.exchange hcall
  obtain ⟨-, m', hm, hreply⟩ := hserver.answers hexchange
  cases hm
  exact ⟨m, hexchange.reply, hreply⟩

theorem fileReadValue_ok (hstatus : word m 0 = fileOk) : fileReadValue m = 0 := if_pos hstatus

/-- In every run of the kernel, `file_read` returns what the file system holds at the inode and the
offset asked for, whoever else reads or is killed meanwhile. -/
theorem file_read_served (h : Run env Unwrapped k) (hserver : Serves (fileServer read) gpidFile () k.trace f)
    (hcall : Called k.trace gpidFile p q a c d) : ∃ m, k.trace[d]? = some (.meet gpidFile p m) ∧
      ((∃ block, read (word q 4) (word q 8) = .ok block ∧ fileReadValue m = 0 ∧
        fileReadBlock m = fun x => blockByte block x.val) ∨
      (read (word q 4) (word q 8) = .error .fail ∧ fileReadValue m = -1)) := by
  obtain ⟨m, hm, hreply⟩ := file_read_reply h hserver hcall
  refine ⟨m, hm, ?_⟩
  cases hreply with
  | ok block hread hstatus hblock =>
    exact Or.inl ⟨block, hread, fileReadValue_ok hstatus, funext fun x => hblock x.val x.isLt⟩
  | error hread hstatus hblock =>
    have hne : ¬word m 0 = fileOk := by
      rw [hstatus]
      decide
    exact Or.inr ⟨hread, by rw [fileReadValue, if_neg hne]⟩

/-- What `mkfs` has put on the image under the name of a program, every process reads. -/
theorem program_served (exec : Mkfs.Bytes) (dir : List Mkfs.Dirent) (beyond : Mkfs.Bytes) (fs : Treedisk.Disk) (i : Nat)
    (e : Mkfs.Dirent) (hmake : Mkfs.makeFs dir beyond = .ok fs) (hi : (Mkfs.programs dir)[i]? = some e)
    (h : Run env Unwrapped k)
    (hserver : Serves (fileServer (Treedisk.treediskRead (Mkfs.sysFileDisk (Mkfs.diskImg exec fs)))) gpidFile () k.trace f)
    (hcall : Called k.trace gpidFile p q a c d) (hino : (word q 4).toNat = i + 7)
    (hin : 512 * (word q 8).toNat < e.file.length) :
    ∃ m, k.trace[d]? = some (.meet gpidFile p m) ∧ fileReadValue m = 0 ∧
      ∀ x : Fin 512, 512 * (word q 8).toNat + x.val < e.file.length →
        e.file[512 * (word q 8).toNat + x.val]? = some (fileReadBlock m x) := by
  obtain ⟨files, hholds⟩ := (Mkfs.makeFs_holds dir beyond).of_ok hmake
  have hfew := hholds.few
  have hlt : i < (Mkfs.programs dir).length := (List.getElem?_eq_some_iff.mp hi).1
  obtain ⟨block, hread, hbytes⟩ :=
    Mkfs.treediskRead_holds exec hholds.store (by omega) (hholds.files i e hi) (n := (word q 8).toNat) hin
  rw [← hino, UInt32.ofNat_toNat, UInt32.ofNat_toNat] at hread
  obtain ⟨m, hm, hreply⟩ := file_read_reply h hserver hcall
  cases hreply with
  | ok block' hread' hstatus hblock =>
    rw [hread] at hread'
    cases hread'
    refine ⟨m, hm, fileReadValue_ok hstatus, fun x hx => ?_⟩
    rw [fileReadBlock, hblock x.val x.isLt]
    exact hbytes x.val x.isLt hx
  | error hread' hstatus hblock =>
    rw [hread] at hread'
    cases hread'

section Sample

deriving instance DecidableEq for Call
deriving instance DecidableEq for Label

variable {σ : Type} (srv : Pid) (request reply : Content) (s s' : σ)

/-- A server announces itself, and process 1 gets a request answered. -/
def sampleTrace : List (Label Pid Content) :=
  [.call 1 (.recv (some srv)), .call srv (.send 1 fun _ => 9), .meet srv 1 fun _ => 9, .call 1 (.send srv request),
    .call srv (.recv none), .meet 1 srv request, .call srv (.send 1 reply), .call 1 (.recv (some srv)),
    .meet srv 1 reply]

def sampleStates : Nat → Server Pid Content σ
  | 0 => .start s
  | 1 => .start s
  | 2 => .announcing s 1 fun _ => 9
  | 3 => .idle s
  | 4 => .idle s
  | 5 => .listening s
  | 6 => .answering s' 1 reply
  | 7 => .replying s' 1 reply
  | 8 => .replying s' 1 reply
  | _ => .idle s'

/-- Process `srv` has been created, and waits for its turn. -/
def sampleActions : List Action :=
  [ecall .recv srv fun _ => 0, ecall .send 1 fun _ => 9, ecall .send srv request, ecall .recv gpidAll fun _ => 0,
    ecall .send 1 reply, ecall .recv srv fun _ => 0]

variable {srv request reply s s'}

theorem sampleTrace_serves {handle : Handler Content σ} (hsrv : srv ≠ 1) (hreply : handle s request s' (some reply)) :
    Serves handle srv s (sampleTrace srv request reply) (sampleStates reply s s') := by
  refine ⟨rfl, fun n l h => ?_⟩
  have hn : n < 9 := (List.getElem?_eq_some_iff.mp h).1
  interval_cases n <;> cases h
  · exact .other _ _ hsrv
  · exact .announce s 1 _
  · exact .announced s 1 _
  · exact .other _ _ hsrv
  · exact .listen s
  · exact .request s s' 1 _ _ hreply
  · exact .answer s' 1 _
  · exact .other _ _ hsrv
  · exact .answered s' 1 _

theorem sampleTrace_called (hsrv : srv ≠ 1) : Called (sampleTrace srv request reply) srv 1 request 3 7 8 := by
  refine ⟨rfl, rfl, ⟨_, rfl, Or.inr rfl⟩, by decide, fun k c' hk hk' h => ?_, fun k hk hk' h => ?_,
    fun k l hk hk' => by omega⟩
  · interval_cases k <;> first | rfl | (cases h <;> exact absurd rfl hsrv)
  · interval_cases k <;> cases h

def sampleDisk : Treedisk.Disk :=
  ⟨4096, fun n => if n = 0 then fun i => if i = 0 then 1 else 0
    else if n = 1 then fun i => if i = 14 then 5 else if i = 15 then 1 else 0
    else if n = 5 then fun _ => 0x07070707
    else fun _ => 0⟩

def sampleRequest : Content := fun i => if i.val = 0 then 1 else if i.val = 4 then 7 else 0

def sampleReply : Content := fun i => if 4 ≤ i.val ∧ i.val < 516 then 7 else 0

theorem sampleReply_byte {x : Nat} (hx : x < 512) : byteAt sampleReply (4 + x) = 7 := by
  rw [byteAt, dif_pos (by omega), sampleReply, if_pos ⟨by dsimp only; omega, by dsimp only; omega⟩]

theorem replay_traced {actions : List Action} {t : List (Label Pid Content)}
    (h : (replay Unwrapped still actions).map (fun k => decide (k.trace = t)) = some true) :
    ∃ k, replay Unwrapped still actions = some k ∧ k.trace = t := by
  obtain ⟨k, hk, hdecide⟩ := Option.map_eq_some_iff.mp h
  exact ⟨k, hk, of_decide_eq_true hdecide⟩

theorem file_replay : ∃ k, replay Unwrapped still ([.procAlloc, .procAlloc, .procSetReady 3] ++
    sampleActions gpidFile sampleRequest sampleReply) = some k ∧ k.trace = sampleTrace gpidFile sampleRequest sampleReply :=
  replay_traced (by decide +kernel)

theorem sampleDisk_read :
    Treedisk.treediskRead sampleDisk (word sampleRequest 4) (word sampleRequest 8) = .ok (sampleDisk.data 5) := by
  have hblock : (Treedisk.treediskRead sampleDisk (word sampleRequest 4) (word sampleRequest 8)).toOption.any
      (fun b => decide (∀ i : Fin 128, b i = sampleDisk.data 5 i)) = true := by
    decide +kernel
  obtain ⟨block, hread, heq⟩ := ok_of_any hblock
  rw [hread, funext (of_decide_eq_true heq)]

theorem sampleReply_ok {block : Block} (hread : read (word sampleRequest 4) (word sampleRequest 8) = .ok block)
    (hblock : ∀ x < 512, blockByte block x = 7) : fileServer read () sampleRequest () (some sampleReply) :=
  ⟨by decide +kernel, _, rfl, .ok block hread (by decide +kernel) fun x hx => by
    rw [sampleReply_byte hx, hblock x hx]⟩

theorem file_read_served_sample : ∃ m : Content, fileReadValue m = 0 ∧ fileReadBlock m 12 = 7 := by
  have hserver := @sampleTrace_serves _ gpidFile _ _ _ _ _ (by decide) (sampleReply_ok sampleDisk_read (by decide +kernel))
  have hcall := @sampleTrace_called gpidFile sampleRequest sampleReply (by decide)
  obtain ⟨k, hk, htrace⟩ := file_replay
  rw [← htrace] at hserver hcall
  obtain ⟨m, -, ⟨block, hread, hvalue, hblock⟩ | ⟨hread, -⟩⟩ := file_read_served (Run.replay hk) hserver hcall
  · rw [sampleDisk_read] at hread
    cases hread
    exact ⟨m, hvalue, by rw [hblock]; decide +kernel⟩
  · rw [sampleDisk_read] at hread
    cases hread

def oneBlock : Mkfs.Dirent := ⟨Grep.ascii "a.elf", List.replicate 512 7⟩

theorem oneBlock_fits : Mkfs.Fits [oneBlock] := ⟨by decide +kernel, by decide +kernel, by decide +kernel⟩

theorem program_served_sample : ∃ m : Content, fileReadValue m = 0 ∧ some (fileReadBlock m 12) = oneBlock.file[12]? := by
  obtain ⟨fs, hmake⟩ := Mkfs.makeFs_completes oneBlock_fits fun _ => 0
  have hi : (Mkfs.programs [oneBlock])[0]? = some oneBlock := by
    rw [Mkfs.programs_singleton (by decide +kernel)]
    rfl
  obtain ⟨files, hholds⟩ := (Mkfs.makeFs_holds [oneBlock] fun _ => 0).of_ok hmake
  obtain ⟨block, hread, hbytes⟩ :=
    Mkfs.treediskRead_holds (fun _ => 0) hholds.store (by decide) (hholds.files 0 _ hi) (n := 0) (by decide +kernel)
  have hblock : ∀ x < 512, blockByte block x = 7 := by
    intro x hx
    have hseven : oneBlock.file[x]? = some 7 := List.getElem?_replicate_of_lt hx
    have hbyte := hbytes x hx (by rw [show oneBlock.file.length = 512 from List.length_replicate]; omega)
    rw [Nat.mul_zero, Nat.zero_add, hseven] at hbyte
    exact (Option.some.inj hbyte).symm
  have hword : word sampleRequest 4 = UInt32.ofNat (0 + 7) := by decide +kernel
  have hzero : word sampleRequest 8 = UInt32.ofNat 0 := by decide +kernel
  rw [← hword, ← hzero] at hread
  have hserver := @sampleTrace_serves _ gpidFile _ _ _ _ _ (by decide) (sampleReply_ok hread hblock)
  have hcall := @sampleTrace_called gpidFile sampleRequest sampleReply (by decide)
  obtain ⟨k, hk, htrace⟩ := file_replay
  rw [← htrace] at hserver hcall
  obtain ⟨m, -, hvalue, hm⟩ := program_served (fun _ => 0) [oneBlock] (fun _ => 0) fs 0 oneBlock hmake hi (Run.replay hk)
    hserver hcall (by decide +kernel) (by decide +kernel)
  have hbyte := hm 12 (by decide +kernel)
  rw [hzero] at hbyte
  exact ⟨m, hvalue, hbyte.symm⟩

end Sample

end OsSuite.Grass
