import Xv6.Proc.Pipe

/-!
# Nobody sleeps on a ready pipe

Readers sleep on `&p->nread` and writers on `&p->nwrite`. A reader that took bytes
and a closer wake the other side before they release the lock. A writer does too,
except on one path: when it finds the ring full and itself killed, or no reader
left, it returns at once, and if it stored bytes since its last `wakeup` the readers
stay asleep beside a full ring. Without that path the contract of `sleep` and
`wakeup` holds on both channels.
-/

set_option autoImplicit false

namespace Xv6.Pipes
open Xv6.Sleep

variable {n : ℕ}

/-- What a reader waits for, and what a writer waits for. -/
def Pipe.readable (d : Pipe n) : Prop := ¬ d.empty ∨ d.writeopen = false

def Pipe.writable (d : Pipe n) : Prop := ¬ d.full ∨ d.readopen = false

/-- The points that owe a `wakeup(&p->nread)`. -/
def owesReaders (k : Fin n × Point) : Prop :=
  (∃ len buf, k.2 = .store len buf true) ∨ k.2 = .closed true

/-- The points that owe a `wakeup(&p->nwrite)`. -/
def owesWriters (k : Fin n × Point) : Prop := (∃ m i, k.2 = .copy m i) ∨ k.2 = .closed false

/-- A writer between its test and `sleep` still has the full ring it tested for. -/
def BlockedFull (k : Fin n × Point) (d : Pipe n) : Prop :=
  match k.2 with
  | .blocked _ _ => d.full ∧ d.readopen = true
  | _ => True

theorem blocked_guarded (quits : Prop) : Guarded (pipeClient n quits) BlockedFull where
  move := by
    rintro m ⟨p,k⟩ d ⟨p',k'⟩ d' ⟨-,h⟩ hG
    cases h with
    | block hf ho hk => exact ⟨hf,ho⟩
    | _ => trivial
  free := by
    rintro ⟨p,k⟩ d hk
    cases k with
    | blocked len buf => cases hk
    | _ => trivial
  sleep := by
    rintro c ⟨p,k⟩ d ⟨p',k'⟩ d' ⟨-,h⟩ e
    cases h <;> trivial
  data := by
    rintro m ⟨p,k⟩ d ⟨p',k'⟩ d' ⟨-,h⟩
    cases h with
    | put hf => exact Or.inr rfl
    | get he => exact Or.inr rfl
    | close => exact Or.inr rfl
    | _ => exact Or.inl rfl

/-- The condition `I` of the two contracts. -/
def TestHolds (s : PipeSt n) : Prop := ∀ p, BlockedFull (s.points p) s.data

theorem reach_testHolds {quits : Prop} {data : ℕ → UInt8} {killed : Fin n → Bool} {s : PipeSt n}
    (h : KReach (pipeClient n quits) Pipe.kill (pipeStart data killed) s) : TestHolds s := by
  apply h.guarded (pipe_start quits data killed) (blocked_guarded quits)
  rintro q ⟨p,k⟩ d hG
  cases k with
  | blocked len buf => exact hG
  | _ => trivial

theorem close_writable (d : Pipe n) : (d.close true).writable ↔ d.writable := Iff.rfl

theorem close_readable (d : Pipe n) : (d.close false).readable ↔ d.readable := Iff.rfl

theorem readers_contract :
    Contract (n := n) (pipeClient n False) TestHolds nreadChan Pipe.readable owesReaders where
  sleeps := by
    rintro s p ⟨q,k⟩ ⟨q',k'⟩ d hI hp ⟨-,h⟩
    cases h with
    | readSleep he ho hk =>
      rintro (hne | hclosed)
      · exact hne he
      · rw [ho] at hclosed
        cases hclosed
  raises := by
    rintro s p ⟨q,k⟩ ⟨q',k'⟩ d hI hp ⟨-,h⟩ hafter hbefore
    cases h with
    | put hf => exact ⟨rfl,Or.inl ⟨_,_,rfl⟩⟩
    | get he => exact absurd (Or.inl he) hbefore
    | @close _ writable =>
      cases writable with
      | true => exact ⟨rfl,Or.inr rfl⟩
      | false => exact absurd ((close_readable _).mp hafter) hbefore
    | _ => exact absurd hafter hbefore
  keeps := by
    rintro m ⟨q,k⟩ d ⟨q',k'⟩ d' ⟨-,h⟩ hm ho
    rcases ho with ⟨len,buf,hk⟩ | hk
    · dsimp only at hk
      subst hk
      cases h with
      | put hf => exact Or.inl ⟨_,_,rfl⟩
      | giveUp hf hk hq => exact (hq rfl).elim
      | block hf ho hk => exact absurd rfl hm
      | written => exact absurd rfl hm
    · dsimp only at hk
      subst hk
      cases h
      exact absurd rfl hm

/-- Writers: room appears by `get`, and the last reader leaves by `pipeclose`. -/
theorem writers_contract (quits : Prop) :
    Contract (n := n) (pipeClient n quits) TestHolds nwriteChan Pipe.writable owesWriters where
  sleeps := by
    rintro s p ⟨q,k⟩ ⟨q',k'⟩ d hI hp ⟨-,h⟩
    cases h with
    | writeSleep =>
      have hb : BlockedFull (s.points p) s.data := hI p
      rw [St.points, hp] at hb
      rintro (hroom | hclosed)
      · exact hroom hb.1
      · rw [hb.2] at hclosed
        cases hclosed
  raises := by
    rintro s p ⟨q,k⟩ ⟨q',k'⟩ d hI hp ⟨-,h⟩ hafter hbefore
    cases h with
    | put hf => exact absurd (Or.inl hf) hbefore
    | get he => exact ⟨rfl,Or.inl ⟨_,_,rfl⟩⟩
    | @close _ writable =>
      cases writable with
      | true => exact absurd ((close_writable _).mp hafter) hbefore
      | false => exact ⟨rfl,Or.inr rfl⟩
    | _ => exact absurd hafter hbefore
  keeps := by
    rintro m ⟨q,k⟩ d ⟨q',k'⟩ d' ⟨-,h⟩ hm ho
    rcases ho with ⟨len,buf,hk⟩ | hk
    · dsimp only at hk
      subst hk
      cases h with
      | get he => exact Or.inl ⟨_,_,rfl⟩
      | delivered hd => exact absurd rfl hm
    · dsimp only at hk
      subst hk
      cases h
      exact absurd rfl hm

theorem pending_locked {quits : Prop} {s : PipeSt n} (hl : Locked (pipeClient n quits) s)
    {owes : Fin n × Point → Prop} {c : ℕ} (hheld : ∀ k, owes k → k.2.holds = true)
    (hback : ∀ {k d k' d'} {c' : ℕ}, (pipeClient n quits).move (.sleep c') k d k' d' → ¬ owes k')
    {p : Fin n} (hp : Pending owes c (s.ctl p)) : s.lk ≠ none := by
  have hhas : (s.ctl p).hasLk (pipeClient n quits) := by
    cases hc : s.ctl p with
    | run k =>
      rw [hc] at hp
      exact hheld k hp
    | sleep pc c' k =>
      rw [hc] at hp
      obtain ⟨_,_,_,hm⟩ := hl.sleeping hc
      exact absurd hp (hback hm)
    | wakeup todo c' k =>
      obtain ⟨⟨q,k₀⟩,d,d',⟨-,hm⟩⟩ := hl.waking hc
      cases k with
      | mk q' k => cases hm <;> rfl
  rw [(hl.lk p).mpr hhas]
  simp

/-- In every run in which no writer gives up after it has stored bytes that no reader
was woken for, whenever `p->lock` is free no reader sleeps while there are bytes or no
writer is left, and no writer sleeps while there is room or no reader is left. -/
theorem ready_pipe_awake {data : ℕ → UInt8} {killed : Fin n → Bool} {s : PipeSt n}
    (h : KReach (pipeClient n False) Pipe.kill (pipeStart data killed) s) (hfree : s.lk = none)
    (q : Fin n) :
    ¬ (s.state q = .sleeping ∧ s.chan q = some nreadChan ∧
      (s.data.nread ≠ s.data.nwrite ∨ s.data.writeopen = false)) ∧
    ¬ (s.state q = .sleeping ∧ s.chan q = some nwriteChan ∧
      (s.data.nwrite ≠ s.data.nread+BitVec.ofNat 32 PIPESIZE ∨ s.data.readopen = false)) := by
  have h₀ := pipe_start False data killed
  have hl := h.locked h₀
  have hI : ∀ s, KReach (pipeClient n False) Pipe.kill (pipeStart data killed) s → TestHolds s :=
    fun _ => reach_testHolds
  constructor
  · rintro ⟨hs,hch,hc⟩
    obtain ⟨p,hp⟩ := (h.watched h₀ hI readers_contract fun _ _ => id).pending (h.placed h₀) hs hch hc
    refine pending_locked hl ?_ ?_ hp hfree
    · rintro ⟨r,k⟩ (⟨len,buf,hk⟩ | hk) <;> dsimp only at hk <;> subst hk <;> rfl
    · rintro ⟨r,k⟩ d ⟨r',k'⟩ d' c ⟨-,hm⟩ ho
      cases hm <;> simp [owesReaders] at ho
  · rintro ⟨hs,hch,hc⟩
    obtain ⟨p,hp⟩ :=
      (h.watched h₀ hI (writers_contract False) fun _ _ => id).pending (h.placed h₀) hs hch hc
    refine pending_locked hl ?_ ?_ hp hfree
    · rintro ⟨r,k⟩ (⟨len,buf,hk⟩ | hk) <;> dsimp only at hk <;> subst hk <;> rfl
    · rintro ⟨r,k⟩ d ⟨r',k'⟩ d' c ⟨-,hm⟩ ho
      cases hm <;> simp [owesWriters] at ho

theorem reader_asleep (quits : Prop) : ∃ s : PipeSt 3,
    KReach (pipeClient 3 quits) Pipe.kill (pipeStart (fun _ => 0) fun _ => false) s ∧
      s.lk = none ∧ s.pt = .free ∧ s.state 0 = .sleeping ∧ s.chan 0 = some nreadChan ∧
      s.ctl 1 = .run (1,.outside) ∧ s.data = pipealloc (fun _ => 0) fun _ => false := by
  have hr : KReach (pipeClient 3 quits) Pipe.kill (pipeStart (fun _ => 0) fun _ => false)
    (pipeStart (fun _ => 0) fun _ => false) := KReach.start
  replace hr := hr.step (.step (Step.work (p := 0) rfl (PipeMove.piperead 1).client))
  replace hr := hr.step (.step (Step.acquire (p := 0) rfl PipeMove.readLock.client rfl))
  replace hr := hr.step (.step (Step.sleep (p := 0) rfl (PipeMove.readSleep (by decide) rfl rfl).client))
  replace hr := hr.step (.step (Step.sleepPt (p := 0) rfl rfl))
  replace hr := hr.step (.step (Step.sleepLk (p := 0) rfl))
  replace hr := hr.step (.step (Step.sleepChan (p := 0) rfl))
  replace hr := hr.step (.step (Step.sleepState (p := 0) rfl))
  replace hr := hr.step (.step (Step.sched (p := 0) rfl))
  replace hr := hr.step (.step (Step.schedRelease rfl))
  exact ⟨_,hr,rfl,rfl,rfl,rfl,rfl,rfl⟩

theorem ready_pipe_awake_reader : ∃ s : PipeSt 3,
    KReach (pipeClient 3 False) Pipe.kill (pipeStart (fun _ => 0) fun _ => false) s ∧
      s.state 0 = .sleeping ∧ s.data.nread = s.data.nwrite ∧ s.data.writeopen = true := by
  obtain ⟨s,hr,hlk,-,hs,hch,-⟩ := reader_asleep False
  refine ⟨s,hr,hs,?_⟩
  by_contra hnot
  refine (ready_pipe_awake hr hlk 0).1 ⟨hs,hch,?_⟩
  by_cases he : s.data.nread = s.data.nwrite
  · exact Or.inr (by simpa [he] using hnot)
  · exact Or.inl he

/-- Process 0 is asleep and process 1 has stored `j` of its 513 bytes. -/
structure Filling (j : ℕ) (s : PipeSt 3) : Prop where
  reach : KReach (pipeClient 3 True) Pipe.kill (pipeStart (fun _ => 0) fun _ => false) s
  writer : ∃ fresh, s.ctl 1 = .run (1,.store 513 (List.replicate (513-j) 0) fresh)
  pt : s.pt = .free
  state : s.state 0 = .sleeping
  chan : s.chan 0 = some nreadChan
  nread : s.data.nread = 0#32
  nwrite : s.data.nwrite = BitVec.ofNat 32 j

theorem filling_start : ∃ s, Filling 0 s := by
  obtain ⟨s,hr,hlk,hpt,hs,hch,h1,hd⟩ := reader_asleep True
  have hr1 := hr.step (.step (Step.work h1 (PipeMove.pipewrite (List.replicate 513 0)).client))
  have hr2 := hr1.step (.step (Step.acquire (Function.update_self ..) PipeMove.writeLock.client hlk))
  rw [List.length_replicate] at hr2
  refine ⟨_,hr2,⟨false,?_⟩,hpt,hs,hch,?_,?_⟩
  · simp only [St.goto, Function.update_self, Nat.sub_zero]
  · exact congrArg Pipe.nread hd
  · exact congrArg Pipe.nwrite hd

theorem Filling.put {j : ℕ} {s : PipeSt 3} (h : Filling j s) (hj : j < 512) :
    ∃ s', Filling (j+1) s' := by
  obtain ⟨fresh,hw⟩ := h.writer
  have hbuf : List.replicate (513-j) (0 : UInt8) = 0::List.replicate (513-(j+1)) 0 := by
    rw [show 513-j = 513-(j+1)+1 by omega, List.replicate_succ]
  rw [hbuf] at hw
  have hroom : ¬ s.data.full := by
    rw [Pipe.full, h.nread, h.nwrite, ← BitVec.toNat_inj]
    simp only [BitVec.toNat_add, BitVec.toNat_ofNat, PIPESIZE]
    omega
  refine ⟨_,h.reach.step (.step (Step.work hw (PipeMove.put hroom).client)),
    ⟨true,Function.update_self 1 _ s.ctl⟩,h.pt,h.state,h.chan,h.nread,?_⟩
  change s.data.nwrite+1 = _
  rw [h.nwrite, BitVec.ofNat_add]
  rfl

theorem filling_full : ∀ j ≤ 512, ∃ s, Filling j s := by
  intro j hj
  induction j with
  | zero => exact filling_start
  | succ j ih =>
    obtain ⟨s,hs⟩ := ih (by omega)
    exact hs.put (by omega)

/-- A writer is killed while it stores 513 bytes: it fills the ring, finds itself
killed, and leaves a reader asleep next to 512 bytes. -/
theorem killed_writer_strands_reader : ∃ s : PipeSt 3,
    KReach (pipeClient 3 True) Pipe.kill (pipeStart (fun _ => 0) fun _ => false) s ∧
      s.lk = none ∧ s.state 0 = .sleeping ∧ s.chan 0 = some nreadChan ∧
      s.data.nread ≠ s.data.nwrite := by
  obtain ⟨s,hs⟩ := filling_full 512 (by omega)
  obtain ⟨fresh,hw⟩ := hs.writer
  have hr1 := hs.reach.step (.kill (q := 1) hs.pt)
  have hfull : (s.kill Pipe.kill 1).data.full := by
    change s.data.nwrite = s.data.nread+_
    rw [hs.nread, hs.nwrite]
    rfl
  have hkilled : (s.kill Pipe.kill 1).data.killed 1 = true := by
    simp [St.kill, Pipe.kill]
  have hr2 := hr1.step (.step (Step.work (p := 1) hw
    (PipeMove.giveUp hfull (Or.inr hkilled) fun _ => trivial).client))
  have hr3 := hr2.step (.step (Step.release (Function.update_self ..) PipeMove.leave.client))
  refine ⟨_,hr3,rfl,?_,hs.chan,?_⟩
  · change (s.kill Pipe.kill 1).state 0 = _
    rw [St.kill]
    dsimp only
    split_ifs
    · rw [Function.update_of_ne (by decide)]
      exact hs.state
    · exact hs.state
  · change s.data.nread ≠ s.data.nwrite
    rw [hs.nread, hs.nwrite]
    decide

end Xv6.Pipes
