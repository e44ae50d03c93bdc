import Xv6.Fs.Layout
import Xv6.Fs.Log
import Xv6.Mem.Kalloc
import Xv6.Lib.Halting

/-!
# The disk driver

`ide.c`: buffers wait in `idequeue`, the drive works on the first of them, and its
interrupt answers that request and starts the next. An interrupt is taken as an answer
whenever it comes, but the ports are touched only after `idewait` has seen the drive
ready. So each call of `iderw` returns with what a disk gives that carries out the
requests one after another in the order of the calls, and at every moment the platter
is what the first so many requests have made of it. The log relies on both when it
recovers from a crash.
-/

set_option autoImplicit false

namespace Xv6.Ide
open Xv6.Fields Xv6.Kalloc Xv6.Fs

def FSSIZE : ℕ := 1000
def SECTOR_SIZE : ℕ := 512
def sectorPerBlock : ℕ := BSIZE/SECTOR_SIZE
def IDE_CMD_READ : UInt8 := 0x20
def IDE_CMD_WRITE : UInt8 := 0x30
def IDE_CMD_RDMUL : UInt8 := 0xc4
def IDE_CMD_WRMUL : UInt8 := 0xc5

variable {D ι : Type}

/-- The fields of `struct buf` that the driver uses, with contents in `D`. -/
structure Buf (D : Type) where
  valid : Bool
  dirty : Bool
  dev : ℕ
  blockno : ℕ
  data : D

/-- What `idestart` writes to the ports `0x1f2` to `0x1f7`, and the data that follow a
write command. -/
structure Cmd (D : Type) where
  count : UInt8
  low : UInt8
  mid : UInt8
  high : UInt8
  drive : UInt8
  cmd : UInt8
  data : D

def Cmd.unit (c : Cmd D) : ℕ := c.drive.toNat/2^4%2

def Cmd.sector (c : Cmd D) : ℕ :=
  c.low.toNat+2^8*c.mid.toNat+2^16*c.high.toNat+2^24*(c.drive.toNat%2^4)

/-- The two disks, the command under way, and what can be read at port `0x1f0`. -/
structure Drive (D : Type) where
  platter : ℕ → ℕ → D
  busy : Option (Cmd D)
  out : D

def put (p : ℕ → ℕ → D) (d n : ℕ) (x : D) : ℕ → ℕ → D :=
  fun d' n' => if d' = d ∧ n' = n then x else p d' n'

/-- The drive completes its command; `idewait` returns after that. -/
def Drive.finish (v : Drive D) : Drive D :=
  match v.busy with
  | none => v
  | some c =>
    if c.cmd = IDE_CMD_WRITE then
      { v with busy := none, platter := put v.platter c.unit c.sector c.data }
    else { v with busy := none, out := v.platter c.unit c.sector }

def command (b : Buf D) : Cmd D where
  count := .ofNat sectorPerBlock
  low := byteOf (b.blockno*sectorPerBlock) 0
  mid := byteOf (b.blockno*sectorPerBlock) 1
  high := byteOf (b.blockno*sectorPerBlock) 2
  drive := .ofNat (0xe0 ||| (b.dev &&& 1)*2^4 ||| b.blockno*sectorPerBlock/2^24%2^4)
  cmd :=
    if b.dirty then if sectorPerBlock = 1 then IDE_CMD_WRITE else IDE_CMD_WRMUL
    else if sectorPerBlock = 1 then IDE_CMD_READ else IDE_CMD_RDMUL
  data := b.data

/-- `waiting` marks the buffers that a call of `iderw` has been made for and has not
returned; such a call holds the lock of the buffer. -/
structure St (D ι : Type) where
  buf : ι → Buf D
  waiting : ι → Bool
  idequeue : List ι
  drive : Drive D

def idestart (s : St D ι) (b : ι) : Except Halt (St D ι) :=
  if FSSIZE ≤ (s.buf b).blockno then .error (.panic "incorrect blockno")
  else if 7 < sectorPerBlock then .error (.panic "idestart")
  else .ok { s with drive := { s.drive.finish with busy := some (command (s.buf b)) } }

section
variable [DecidableEq ι]

/-- The handler, with the error bits that `idewait(1)` finds after a read. -/
def ideintr (err : Bool) (s : St D ι) : Except Halt (St D ι) :=
  match s.idequeue with
  | [] => .ok s
  | b::rest =>
    let x := s.buf b
    -- only for a read does the handler wait for the drive
    let r := if x.dirty then (s.drive, x.data)
      else (s.drive.finish, if err then x.data else s.drive.finish.out)
    let t : St D ι := { s with
      buf := Function.update s.buf b { x with valid := true, dirty := false, data := r.2 }
      idequeue := rest
      drive := r.1 }
    match rest with
    | [] => .ok t
    | c::_ => idestart t c

/-- `iderw` up to the loop in which it sleeps. -/
def iderw (havedisk1 : Bool) (s : St D ι) (b : ι) : Except Halt (St D ι) :=
  if (s.buf b).valid ∧ (s.buf b).dirty = false then .error (.panic "iderw: nothing to do")
  else if (s.buf b).dev ≠ 0 ∧ havedisk1 = false then
    .error (.panic "iderw: ide disk 1 not present")
  else
    let t : St D ι := { s with
      waiting := Function.update s.waiting b true
      idequeue := s.idequeue++[b] }
    if t.idequeue.head? = some b then idestart t b else .ok t

def Buf.synced (x : Buf D) : Bool := x.valid && !x.dirty

/-- The states of the runs from `s₀`, with the requests that are answered and those in the
queue, each with the buffer as `iderw` was given it. An interrupt is early if the drive is
still busy, and the drive is faulty if a read may fail. -/
inductive Reach (disk1 early faulty : Bool) (s₀ : St D ι) :
    List (ι × Buf D) → List (ι × Buf D) → St D ι → Prop where
  | start : Reach disk1 early faulty s₀ [] [] s₀
  | use {l m s b} (h : Reach disk1 early faulty s₀ l m s) (hb : s.waiting b = false) (x : Buf D) :
      Reach disk1 early faulty s₀ l m { s with buf := Function.update s.buf b x }
  | call {l m s s' b} (h : Reach disk1 early faulty s₀ l m s) (hb : s.waiting b = false)
      (hs : iderw disk1 s b = .ok s') : Reach disk1 early faulty s₀ l (m++[(b, s.buf b)]) s'
  | work {l m s} (h : Reach disk1 early faulty s₀ l m s) :
      Reach disk1 early faulty s₀ l m { s with drive := s.drive.finish }
  | intr {l m s s' e} (h : Reach disk1 early faulty s₀ l m s)
      (he : early = true ∨ s.drive.busy = none) (hf : e = true → faulty = true)
      (hs : ideintr e s = .ok s') : Reach disk1 early faulty s₀ (l++m.take 1) (m.drop 1) s'
  | leave {l m s b} (h : Reach disk1 early faulty s₀ l m s) (hb : (s.buf b).synced = true) :
      Reach disk1 early faulty s₀ l m { s with waiting := Function.update s.waiting b false }

end

/-! ### One request after another -/

def serve (p : ℕ → ℕ → D) (x : Buf D) : ℕ → ℕ → D :=
  if x.dirty then put p (x.dev%2) x.blockno x.data else p

def replay (p : ℕ → ℕ → D) (l : List (ι × Buf D)) : ℕ → ℕ → D :=
  l.foldl (fun p a => serve p a.2) p

/-- After a failed read the buffer is valid as well, with the data it had. -/
def answer (err : Bool) (p : ℕ → ℕ → D) (x : Buf D) : Buf D :=
  { x with
    valid := true
    dirty := false
    data := if x.dirty || err then x.data else p (x.dev%2) x.blockno }

/-- `y` is the answer to the last request for `b`. -/
def Answered (faulty : Bool) (p : ℕ → ℕ → D) (l : List (ι × Buf D)) (b : ι) (y : Buf D) : Prop :=
  ∃ l₁ x l₂ err, l = l₁++(b, x)::l₂ ∧ (∀ a ∈ l₂, a.1 ≠ b) ∧ (err = true → faulty = true) ∧
    y = answer err (replay p l₁) x

/-- The ports name the block. -/
theorem command_address {x : Buf D} (h : x.blockno < FSSIZE) :
    (command x).unit = x.dev%2 ∧ (command x).sector = x.blockno := by
  have hs : x.blockno*sectorPerBlock = x.blockno := Nat.mul_one _
  have hdrive : (command x).drive.toNat = 0xe0+x.dev%2*2^4 := by
    have h24 : x.blockno/2^24 = 0 := by
      unfold FSSIZE at h
      omega
    change (UInt8.ofNat _).toNat = _
    rw [hs, h24, Nat.and_one_is_mod]
    obtain h2 | h2 := Nat.mod_two_eq_zero_or_one x.dev <;> rw [h2] <;> rfl
  have hb : ∀ k, (byteOf x.blockno k).toNat = x.blockno/256^k%256 := fun k => rfl
  rw [Cmd.unit, Cmd.sector, hdrive]
  change _ ∧ (byteOf _ 0).toNat+2^8*(byteOf _ 1).toNat+2^16*(byteOf _ 2).toNat+_ = _
  rw [hs, hb, hb, hb]
  unfold FSSIZE at h
  omega

theorem finish_idle {v : Drive D} (h : v.busy = none) : v.finish = v := by
  rw [Drive.finish, h]

theorem finish_busy (v : Drive D) : v.finish.busy = none := by
  rw [Drive.finish]
  split
  · assumption
  · split <;> rfl

theorem finish_command (v : Drive D) {x : Buf D} (h : x.blockno < FSSIZE) :
    ({ v with busy := some (command x) } : Drive D).finish.platter = serve v.platter x ∧
    (x.dirty = false → ({ v with busy := some (command x) } : Drive D).finish.out =
      v.platter (x.dev%2) x.blockno) := by
  obtain ⟨h1,h2⟩ := command_address h
  have hc : (command x).cmd = if x.dirty then IDE_CMD_WRITE else IDE_CMD_READ := rfl
  simp only [Drive.finish, hc, h1, h2, serve]
  cases x.dirty with
  | true => exact ⟨rfl,fun h => by cases h⟩
  | false => exact ⟨rfl,fun _ => rfl⟩

variable {disk1 early faulty err : Bool} {s₀ s s' : St D ι} {p : ℕ → ℕ → D}
  {l m : List (ι × Buf D)} {b : ι}

theorem idestart_cases (h : idestart s b = .ok s') : (s.buf b).blockno < FSSIZE ∧
    s' = { s with drive := { s.drive.finish with busy := some (command (s.buf b)) } } := by
  rw [idestart] at h
  split at h
  · cases h
  · next hb =>
    rw [if_neg (by decide)] at h
    cases h
    exact ⟨Nat.lt_of_not_le hb,rfl⟩

/-- The drive is at the first request of the queue, or the queue is empty; then an early
interrupt may have answered a write that is still under way. -/
structure Works (p : ℕ → ℕ → D) (early : Bool) (l m : List (ι × Buf D)) (v : Drive D) : Prop where
  platter : v.finish.platter = replay p (l++m.take 1)
  out : ∀ a ∈ m.head?, a.2.dirty = false →
    v.finish.out = replay p l (a.2.dev%2) a.2.blockno
  busy : v.busy = none ∨ v.platter = replay p l ∨
    m = [] ∧ early = true ∧ v.platter = replay p l.dropLast

theorem Works.start {v : Drive D} {a : ι × Buf D} (h : v.platter = replay p l)
    (hb : a.2.blockno < FSSIZE) :
    Works p early l (a::m) { v with busy := some (command a.2) } := by
  obtain ⟨h1,h2⟩ := finish_command v hb
  refine ⟨?_,?_,Or.inr (Or.inl h)⟩
  · rw [h1, h, replay, replay, List.foldl_append]
    rfl
  · rintro _ ⟨⟩ hd
    rw [h2 hd, h]

theorem Works.finish {v : Drive D} (h : Works p early l m v) : Works p early l m v.finish := by
  have hv := finish_busy v
  exact ⟨(finish_idle hv).symm ▸ h.platter,(finish_idle hv).symm ▸ h.out,Or.inl hv⟩

theorem Works.earlier {v : Drive D} (h : Works p early l m v) :
    ∃ k, v.platter = replay p ((l++m).take k) ∧ k ≤ l.length+1 ∧ l.length ≤ k+early.toNat := by
  obtain ⟨h1,-,hn | hp | ⟨-,rfl,hp⟩⟩ := h
  · rw [finish_idle hn] at h1
    refine ⟨l.length+1,?_,le_rfl,by omega⟩
    rw [h1, List.take_length_add_append]
  · refine ⟨l.length,?_,by omega,by omega⟩
    rw [hp, List.take_left]
  · -- the write under way was answered early
    refine ⟨l.length-1,?_,by omega,by change _ ≤ _+1; omega⟩
    rw [hp, List.take_append_of_le_length (Nat.sub_le ..), List.dropLast_eq_take]

structure Inv (p : ℕ → ℕ → D) (early faulty : Bool) (l m : List (ι × Buf D)) (s : St D ι) :
    Prop where
  queue : s.idequeue = m.map Prod.fst
  nodup : s.idequeue.Nodup
  asked : ∀ a ∈ m, s.waiting a.1 = true ∧ s.buf a.1 = a.2 ∧ a.2.synced = false
  works : Works p early l m s.drive
  answered : ∀ b, s.waiting b = true → b ∉ s.idequeue → Answered faulty p l b (s.buf b)

theorem Inv.waits (h : Inv p early faulty l m s) (hb : b ∈ s.idequeue) :
    s.waiting b = true ∧ (s.buf b).synced = false := by
  rw [h.queue] at hb
  obtain ⟨a,ha,rfl⟩ := List.mem_map.mp hb
  obtain ⟨h1,h2,h3⟩ := h.asked a ha
  exact ⟨h1,h2 ▸ h3⟩

theorem Answered.snoc {y : Buf D} {a : ι × Buf D} (h : Answered faulty p l b y) (ha : a.1 ≠ b) :
    Answered faulty p (l++[a]) b y := by
  obtain ⟨l₁,x,l₂,err,rfl,hlast,hy⟩ := h
  refine ⟨l₁,x,l₂++[a],err,by rw [List.append_assoc, List.cons_append],fun c hc => ?_,hy⟩
  obtain hc | hc := List.mem_append.mp hc
  · exact hlast c hc
  · exact List.mem_singleton.mp hc ▸ ha

/-! ### The log behind the driver -/

def Buf.writes (v : ℕ) (x : Buf D) : Bool := x.dirty && x.dev%2 == v

/-- The requests that write disk `v` are the first ones of `ws`, which may read the disk that
the earlier ones leave. -/
def Issues (v : ℕ) : Log.Disk → List (ι × Buf Log.Block) → List Log.Write → Prop
  | _, [], _ => True
  | d, a::l, ws =>
    if a.2.writes v then
      ∃ w ws', ws = w::ws' ∧ w d = Log.bwrite a.2.blockno a.2.data d ∧ Issues v (w d) l ws'
    else Issues v d l ws

theorem serve_disk (p : ℕ → Log.Disk) (x : Buf Log.Block) (v : ℕ) :
    serve p x v = if x.writes v then Log.bwrite x.blockno x.data (p v) else p v := by
  rw [serve, Buf.writes]
  cases x.dirty with
  | false => rfl
  | true =>
    ext1 n
    by_cases hv : x.dev%2 = v <;> simp [put, Log.bwrite, Function.update_apply, hv, Ne.symm]

theorem Issues.replay {v : ℕ} {p : ℕ → Log.Disk} {l : List (ι × Buf Log.Block)}
    {ws : List Log.Write} (h : Issues v (p v) l ws) (k : ℕ) :
    replay p (l.take k) v =
      Crash.exec (ws.take ((l.take k).countP fun a => a.2.writes v)) (p v) := by
  induction l generalizing p ws k with
  | nil => simp [Ide.replay, Crash.exec]
  | cons a l ih =>
    cases k with
    | zero => rfl
    | succ k =>
      have hs := serve_disk p a.2 v
      rw [Issues] at h
      rw [List.take_succ_cons, List.countP_cons]
      change Ide.replay (serve p a.2) (l.take k) v = _
      split at h
      · next hv =>
        obtain ⟨w,ws',rfl,hw,h⟩ := h
        rw [if_pos hv, ← hw] at hs
        rw [if_pos hv, List.take_succ_cons, ih (hs.symm ▸ h), hs]
        rfl
      · next hv =>
        rw [if_neg hv] at hs
        rw [if_neg hv, ih (hs.symm ▸ h), hs]
        rfl

/-! ### The runs of the driver -/

variable [DecidableEq ι]

theorem Inv.use (h : Inv p early faulty l m s) (hb : s.waiting b = false) (x : Buf D) :
    Inv p early faulty l m { s with buf := Function.update s.buf b x } := by
  have hbuf : ∀ c, s.waiting c = true → Function.update s.buf b x c = s.buf c := by
    intro c hc
    apply Function.update_of_ne
    rintro rfl
    rw [hb] at hc
    cases hc
  refine ⟨h.queue,h.nodup,fun a ha => ?_,h.works,fun c hc hq => ?_⟩
  · obtain ⟨h1,h2⟩ := h.asked a ha
    exact ⟨h1,(hbuf _ h1).trans h2.1,h2.2⟩
  · change Answered faulty p l c (Function.update s.buf b x c)
    rw [hbuf c hc]
    exact h.answered c hc hq

theorem Inv.leave (h : Inv p early faulty l m s) (hb : (s.buf b).synced = true) :
    Inv p early faulty l m { s with waiting := Function.update s.waiting b false } := by
  refine ⟨h.queue,h.nodup,fun a ha => ?_,h.works,fun c hc hq => ?_⟩
  · obtain ⟨h1,h2,h3⟩ := h.asked a ha
    have hne : a.1 ≠ b := by
      rintro rfl
      rw [h2, h3] at hb
      cases hb
    exact ⟨(Function.update_of_ne hne ..).trans h1,h2,h3⟩
  · change Function.update s.waiting b false c = true at hc
    rw [Function.update_apply] at hc
    split at hc
    · cases hc
    · exact h.answered c hc hq

/-- A call joins the queue; the first one starts the drive. -/
theorem iderw_cases (h : Inv p early faulty l m s) (hnew : b ∉ s.idequeue)
    (hs : iderw disk1 s b = .ok s') :
    (s.buf b).synced = false ∧ ∃ v, Works p early l (m++[(b, s.buf b)]) v ∧ s' =
      { s with
        waiting := Function.update s.waiting b true
        idequeue := s.idequeue++[b]
        drive := v } := by
  have hw := h.works
  have hq := h.queue
  rw [iderw] at hs
  split at hs
  · cases hs
  · next hsync =>
    refine ⟨by simpa [Buf.synced] using hsync,?_⟩
    split at hs
    · cases hs
    · cases m with
      | nil =>
        rw [hq] at hs ⊢
        obtain ⟨hblk,rfl⟩ := idestart_cases (by simpa using hs)
        refine ⟨_,Works.start ?_ hblk,rfl⟩
        rw [hw.platter, List.take_nil, List.append_nil]
      | cons a m =>
        have hne : a.1 ≠ b := by
          intro hab
          apply hnew
          rw [hq, ← hab]
          exact List.mem_cons_self
        rw [hq] at hs ⊢
        rw [if_neg (by simpa using hne)] at hs
        cases hs
        refine ⟨s.drive,⟨hw.platter,hw.out,hw.busy.imp_right (Or.imp_right ?_)⟩,rfl⟩
        exact fun h => by cases h.1

theorem Inv.call (h : Inv p early faulty l m s) (hb : s.waiting b = false)
    (hs : iderw disk1 s b = .ok s') : Inv p early faulty l (m++[(b, s.buf b)]) s' := by
  have hnew : b ∉ s.idequeue := by
    intro hm
    rw [(h.waits hm).1] at hb
    cases hb
  obtain ⟨hsync,v,hv,rfl⟩ := iderw_cases h hnew hs
  refine ⟨?_,?_,fun a ha => ?_,hv,fun c hc hq => ?_⟩
  · rw [List.map_append, ← h.queue]
    rfl
  · exact List.nodup_append_comm.mp (List.nodup_cons.mpr ⟨hnew,h.nodup⟩)
  · change Function.update s.waiting b true a.1 = true ∧ _
    obtain ha | ha := List.mem_append.mp ha
    · obtain ⟨h1,h2⟩ := h.asked a ha
      refine ⟨?_,h2⟩
      rw [Function.update_apply, h1, ite_self]
    · rw [List.mem_singleton.mp ha, Function.update_self]
      exact ⟨rfl,rfl,hsync⟩
  · obtain ⟨hc1,hc2⟩ := not_or.mp (mt List.mem_append.mpr hq)
    change Function.update s.waiting b true c = true at hc
    rw [Function.update_of_ne (by simpa using hc2)] at hc
    exact h.answered c hc hc1

/-- The handler answers the first request and starts the next. -/
theorem ideintr_cases {a : ι × Buf D} (h : Inv p early faulty l (a::m) s)
    (he : early = true ∨ s.drive.busy = none) (hs : ideintr err s = .ok s') :
    ∃ v, Works p early (l++[a]) m v ∧ s' =
      { s with
        buf := Function.update s.buf a.1 (answer err (replay p l) a.2)
        idequeue := m.map Prod.fst
        drive := v } := by
  obtain ⟨-,hbuf,-⟩ := h.asked a List.mem_cons_self
  obtain ⟨hplat,hout,hbusy⟩ := h.works
  have hread : ∃ v, (if a.2.dirty then (s.drive, a.2.data) else
        (s.drive.finish, if err = true then a.2.data else s.drive.finish.out)) =
        (v, (answer err (replay p l) a.2).data) ∧ v.finish = s.drive.finish ∧
      (v.busy = none ∨ early = true ∧ v.platter = replay p l) := by
    rw [answer]
    cases hd : a.2.dirty with
    | true =>
      -- a write is answered without a look at the drive
      refine ⟨s.drive,rfl,rfl,?_⟩
      obtain hn | hp | hm := hbusy
      · exact Or.inl hn
      · exact he.symm.imp_right fun he => ⟨he,hp⟩
      · cases hm.1
    | false =>
      refine ⟨_,Prod.ext rfl ?_,finish_idle (finish_busy _),Or.inl (finish_busy _)⟩
      cases err with
      | true => rfl
      | false => exact hout a rfl hd
  obtain ⟨v,hr,hfin,hv⟩ := hread
  rw [← hfin] at hplat
  rw [ideintr, h.queue, List.map_cons] at hs
  dsimp only at hs
  rw [hbuf, hr] at hs
  have hnew := (List.nodup_cons.mp (List.map_cons ▸ h.queue ▸ h.nodup)).1
  cases m with
  | nil =>
    cases hs
    refine ⟨v,⟨by simpa using hplat,by simp,?_⟩,rfl⟩
    rw [List.dropLast_concat]
    exact hv.imp_right fun hv => Or.inr ⟨rfl,hv⟩
  | cons c m =>
    have hc : c.1 ≠ a.1 := fun hc => hnew (by rw [← hc]; exact List.mem_cons_self)
    obtain ⟨-,hbufc,-⟩ := h.asked c (List.mem_cons_of_mem _ List.mem_cons_self)
    obtain ⟨hblk,rfl⟩ := idestart_cases hs
    dsimp only at hblk ⊢
    rw [Function.update_of_ne hc, hbufc] at hblk ⊢
    exact ⟨_,Works.start hplat hblk,rfl⟩

theorem Inv.intr (h : Inv p early faulty l m s) (he : early = true ∨ s.drive.busy = none)
    (hf : err = true → faulty = true) (hs : ideintr err s = .ok s') :
    Inv p early faulty (l++m.take 1) (m.drop 1) s' := by
  cases m with
  | nil =>
    rw [ideintr, h.queue] at hs
    cases hs
    rwa [List.take_nil, List.append_nil]
  | cons a m =>
    obtain ⟨v,hv,rfl⟩ := ideintr_cases h he hs
    obtain ⟨hnew,hnod⟩ := List.nodup_cons.mp (List.map_cons ▸ h.queue ▸ h.nodup)
    refine ⟨rfl,hnod,fun c hc => ?_,hv,fun b hb hq => ?_⟩
    · obtain ⟨h1,h2⟩ := h.asked c (List.mem_cons_of_mem a hc)
      have hne : c.1 ≠ a.1 := fun hca => hnew (hca ▸ List.mem_map_of_mem hc)
      refine ⟨h1,?_⟩
      change Function.update s.buf a.1 _ c.1 = _ ∧ _
      rwa [Function.update_of_ne hne]
    · by_cases hba : b = a.1
      · subst hba
        exact ⟨l,a.2,[],err,rfl,by simp,hf,Function.update_self ..⟩
      · change Answered faulty p (l++[a]) b (Function.update s.buf a.1 _ b)
        rw [Function.update_of_ne hba]
        refine (h.answered b hb ?_).snoc (Ne.symm hba)
        rw [h.queue]
        exact fun hm => hq ((List.mem_cons.mp hm).resolve_left hba)

def St.Ready (s : St D ι) : Prop :=
  s.idequeue = [] ∧ (∀ b, s.waiting b = false) ∧ s.drive.busy = none

theorem reach_inv (h₀ : s₀.Ready) (h : Reach disk1 early faulty s₀ l m s) :
    Inv s₀.drive.platter early faulty l m s := by
  induction h with
  | start =>
    obtain ⟨h1,h2,h3⟩ := h₀
    refine ⟨h1,h1 ▸ List.nodup_nil,by simp,⟨?_,by simp,Or.inl h3⟩,fun b hb => ?_⟩
    · rw [finish_idle h3]
      rfl
    · rw [h2 b] at hb
      cases hb
  | use _ hb x ih => exact ih.use hb x
  | call _ hb hs ih => exact ih.call hb hs
  | work _ ih => exact ⟨ih.queue,ih.nodup,ih.asked,ih.works.finish,ih.answered⟩
  | intr _ he hf hs ih => exact ih.intr he hf hs
  | leave _ hb ih => exact ih.leave hb

/-- Requests are answered in the order of the calls, and a call returns with the answer of a
disk that has carried out the earlier ones. -/
theorem iderw_linear (h₀ : s₀.Ready) (h : Reach disk1 early faulty s₀ l m s) :
    s.idequeue = m.map Prod.fst ∧ ∀ b, s.waiting b = true →
      (b ∉ s.idequeue ↔ (s.buf b).synced = true) ∧
      (b ∉ s.idequeue → Answered faulty s₀.drive.platter l b (s.buf b)) := by
  have hi := reach_inv h₀ h
  refine ⟨hi.queue,fun b hb => ⟨⟨fun hq => ?_,fun hsync hq => ?_⟩,hi.answered b hb⟩⟩
  · obtain ⟨l₁,x,l₂,err,-,-,-,hy⟩ := hi.answered b hb hq
    rw [hy]
    rfl
  · rw [(hi.waits hq).2] at hsync
    cases hsync

/-- An empty disk, and two buffers of block 5: one to be written and one to be read. -/
def fresh : St ℕ Bool where
  buf b := ⟨!b,!b,1,5,if b then 0 else 7⟩
  waiting _ := false
  idequeue := []
  drive := ⟨fun _ _ => 0,none,0⟩

theorem fresh_ready : fresh.Ready := ⟨rfl,fun _ => rfl,rfl⟩

/-- Both calls are made before the first interrupt, which comes early. -/
theorem fresh_run : ∃ l s, Reach true true false fresh l [] s ∧ s.waiting true = true ∧
    s.idequeue = [] ∧ (s.buf true).data = 7 :=
  ⟨_,_,(((Reach.start.call (b := false) rfl rfl).call (b := true) rfl rfl).intr
    (.inl rfl) (e := false) nofun rfl).intr (.inl rfl) (e := false) nofun rfl,rfl,rfl,rfl⟩

theorem read_behind_write : ∃ l s, Reach true true false fresh l [] s ∧ (s.buf true).data = 7 ∧
    Answered false fresh.drive.platter l true (s.buf true) := by
  obtain ⟨l,s,h,hw,hq,h7⟩ := fresh_run
  refine ⟨l,s,h,h7,((iderw_linear fresh_ready h).2 true hw).2 ?_⟩
  rw [hq]
  exact List.not_mem_nil

/-- At any moment the platter shows the requests up to one of them: all that are answered,
but for the last one if interrupts may be early. -/
theorem platter_is_earlier_state (h₀ : s₀.Ready) (h : Reach disk1 early faulty s₀ l m s) :
    ∃ k, s.drive.platter = replay s₀.drive.platter ((l++m).take k) ∧ k ≤ l.length+1 ∧
      l.length ≤ k+early.toNat :=
  (reach_inv h₀ h).works.earlier

theorem fresh_platter : ∃ l s k, Reach true true false fresh l [] s ∧
    s.drive.platter = replay fresh.drive.platter ((l++[]).take k) ∧ l.length ≤ k+1 := by
  obtain ⟨l,s,h,-⟩ := fresh_run
  obtain ⟨k,hk,-,hl⟩ := platter_is_earlier_state fresh_ready h
  exact ⟨l,s,k,h,hk,hl⟩

/-- The power fails at any moment of a run in which the log commits through the driver, and
again during recovery. Recovery then gives the state after a prefix of the transactions that
holds every one whose writes are answered, the last answer not counted if interrupts may be
early. -/
theorem crash_behind_driver {L : Log.Layout} {s₀ s : St Log.Block ι}
    {l m : List (ι × Buf Log.Block)} (h₀ : s₀.Ready) (h : Reach disk1 early faulty s₀ l m s) (v : ℕ)
    (hd : Log.readHead L (s₀.drive.platter v) = []) (ts : List (Log.Txn L))
    (hw : Issues v (s₀.drive.platter v) (l++m) (Log.commits ts)) (ms : List ℕ) :
    ∃ n ≤ ts.length, (∀ b, L.home b →
      Log.recover L (ms.foldl (Log.cutRecover L) (s.drive.platter v)) b =
        Log.applyAll (ts.take n) (s₀.drive.platter v) b) ∧
      ∀ q ≤ ts.length, (Log.commits (ts.take q)).length+early.toNat ≤
        l.countP (fun a => a.2.writes v) → q ≤ n := by
  obtain ⟨k,hk,-,hl⟩ := (reach_inv h₀ h).works.earlier
  have hclean : Log.Clean L (s₀.drive.platter v) (s₀.drive.platter v) := ⟨hd,fun _ _ => rfl⟩
  obtain ⟨n,hn,hrec,hall⟩ := hclean.commits_cut ts
    (((l++m).take k).countP fun a => a.2.writes v)
  rw [← hw.replay, ← hk] at hrec
  refine ⟨n,hn,(hrec.cuts ms).recover.homes,fun q hq hlen => hall q hq ?_⟩
  have hdrop :=
    List.countP_le_length (p := fun a : ι × Buf Log.Block => a.2.writes v) (l := l.drop k)
  have hsplit := congrArg (List.countP fun a => a.2.writes v) (List.take_append_drop k l)
  rw [List.countP_append] at hsplit
  rw [List.length_drop] at hdrop
  rw [List.take_append, List.countP_append]
  omega

/-- An empty disk 1, and the first write of a commit to the log that `mkfs` lays out. -/
def committing : St Log.Block Unit where
  buf _ := ⟨true,true,1,3,fun _ => 7⟩
  waiting _ := false
  idequeue := []
  drive := ⟨fun _ _ _ => 0,none,fun _ => 0⟩

theorem crash_before_header : ∃ m s, Reach true false false committing [] m s ∧
    Issues 1 (committing.drive.platter 1) m (Log.commits [Log.oneBlock]) ∧
    ∃ n ≤ 1, ∀ b, Log.mkfsLayout.home b → Log.recover Log.mkfsLayout (s.drive.platter 1) b =
      Log.applyAll ([Log.oneBlock].take n) (committing.drive.platter 1) b := by
  have h : Reach true false false committing [] _ _ := Reach.start.call (b := ()) rfl rfl
  have hw : Issues 1 (committing.drive.platter 1) [((), committing.buf ())]
    (Log.commits [Log.oneBlock]) := ⟨_,_,rfl,rfl,trivial⟩
  obtain ⟨n,hn,hr,-⟩ :=
    crash_behind_driver ⟨rfl,fun _ => rfl,rfl⟩ h 1 (by decide) [Log.oneBlock] hw []
  exact ⟨_,_,h,hw,n,hn,hr⟩

end Xv6.Ide
