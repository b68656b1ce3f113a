import Logfs.Pipeline

/-!
# Calls that return

`do_commit` reclaims space until its transaction has room, and returns. Long runs are
put together from such calls.
-/
namespace Logfs
open Interaction WriteCache Transition

namespace Pipe

/-- The same past, with the thread somewhere else. -/
def goto (s : Pipe) (m : TxnMgr) (d : Disk) (pc : Pc) : Pipe := { s with toCore := ⟨m, d, pc⟩ }

/-- The thread runs from one state to the other. -/
abbrev ThreadRun : Pipe → Pipe → Prop := Run Pipe.step fun _ a => a = .thread

theorem threadRun_step {s : Pipe} {m : TxnMgr} {d : Disk} (pc : Pc) {c : Core}
    (hstep : threadStep ⟨m, d, pc⟩ = some c) (hbusy : pc.idle = false)
    (hnone : committing ⟨m, d, pc⟩ = none) :
    ThreadRun (s.goto m d pc) (s.goto c.mgr c.disk c.pc) := by
  refine .next .init rfl ?_
  have hidle : (s.goto m d pc).pc.idle = false := hbusy
  have hcore : threadStep (s.goto m d pc).toCore = some c := hstep
  have hnow : committing (s.goto m d pc).toCore = none := hnone
  rw [step, if_neg (by simp [hidle]), hcore, hnow]
  simp [goto]

section Runs
variable {s : Pipe} {m : TxnMgr} {d : Disk} {j : Journal} {t : CommittedTxn} {caller : Caller}

theorem threadStep_space {nodes : List DirtyBlock}
    (hspace : ¬ journalFreeSpace j < journalSpaceNeeded nodes.length 0) :
    threadStep ⟨m, d, .reclaim j nodes⟩ =
      some ⟨m, d, .commit (journalCommit j (pendingBlocks nodes) []) nodes⟩ := by
  simp only [threadStep, if_neg hspace]

theorem threadStep_noSpace {nodes : List DirtyBlock}
    (hspace : journalFreeSpace j < journalSpaceNeeded nodes.length 0) :
    threadStep ⟨m, d, .reclaim j nodes⟩ = some ⟨m, d, .unlink j (.reclaim nodes)⟩ := by
  simp only [threadStep, if_pos hspace]

theorem threadStep_unlink {ts : List CommittedTxn} (holdest : m.ckpt = t :: ts) :
    threadStep ⟨m, d, .unlink j caller⟩ = some ⟨{ m with ckpt := ts }, d, .writeHome j t t.nodes caller⟩ := by
  simp only [threadStep, unlinkOldest, holdest]

theorem threadRun_writeHome {rest : List DirtyBlock} (hlt : ∀ n ∈ rest, n.blockno < m.dev.nblocks) :
    ThreadRun (s.goto m d (.writeHome j t rest caller))
      (s.goto m (d.writes (nodeWrites rest)) (.writeHome j t [] caller)) := by
  induction rest generalizing d with
  | nil =>
      rw [nodeWrites_nil, writes_nil]
      exact .init
  | cons n rest ih =>
      have hwrite := run_bdevWrite d (hlt n List.mem_cons_self) n.data
      have hstep : threadStep ⟨m, d, .writeHome j t (n :: rest) caller⟩ =
          some ⟨m, d.write n.blockno n.data, .writeHome j t rest caller⟩ := by
        simp only [threadStep, hwrite]
      rw [nodeWrites_cons, ← write_writes]
      exact (threadRun_step _ hstep rfl rfl).trans (ih fun n' hn' => hlt n' (List.mem_cons_of_mem n hn'))

variable (caller) in
theorem threadRun_advance (p : DevM (Except Errno Unit × Journal)) :
    ThreadRun (s.goto m d (.advance p t caller))
      (s.goto m (run faultless p d).2 (.advance (.ret (run faultless p d).1) t caller)) := by
  induction p generalizing d with
  | ret r => exact .init
  | op o k ih => exact (threadRun_step _ (by simp only [threadStep]; rfl) rfl rfl).trans (ih _)

theorem threadRun_commit (nodes : List DirtyBlock) (p : DevM (Except Errno (UInt64 × UInt64) × Journal)) :
    ThreadRun (s.goto m d (.commit p nodes))
      (s.goto m (run faultless p d).2 (.commit (.ret (run faultless p d).1) nodes)) := by
  induction p generalizing d with
  | ret r => exact .init
  | op o k ih => exact (threadRun_step _ (by simp only [threadStep]; rfl) rfl rfl).trans (ih _)

variable {j₀ : Journal} {u : Upkeep j₀} {gens : List (List DirtyBlock)} {img : Image}

variable (caller) in
/-- `checkpoint_oldest` with something to checkpoint. -/
theorem threadRun_checkpoint (h₀ : j₀.Placed) (hdev : m.dev = j₀.dev) {ts : List CommittedTxn}
    (holdest : m.ckpt = t :: ts) (hdisk : OnDisk u gens j img m.ckpt) :
    ThreadRun (s.goto m (settled img) (.unlink j caller))
      (s.goto { m with ckpt := ts }
        (settled (advanceImage j (newTail { m with ckpt := ts } j).1 (newTail { m with ckpt := ts } j).2
          (applyWrites img (nodeWrites t.nodes))))
        (resume { j with tail := (newTail { m with ckpt := ts } j).1 } true caller)) := by
  rw [holdest] at hdisk
  have hlt : ∀ n ∈ t.nodes, n.blockno < m.dev.nblocks := by
    rw [hdev]
    exact (u.generation (hdisk.fits t List.mem_cons_self)).lt
  have hrun := (meets_advance_crash (hdisk.region.placed h₀) (newTail { m with ckpt := ts } j).1
    (newTail { m with ckpt := ts } j).2 (applyWrites img (nodeWrites t.nodes))).run
  have hadvance := threadRun_advance caller (s := s) (m := { m with ckpt := ts }) (t := t)
    (d := settled (applyWrites img (nodeWrites t.nodes)))
    (journalAdvanceTail j (newTail { m with ckpt := ts } j).1 (newTail { m with ckpt := ts } j).2)
  rw [hrun.1, hrun.2] at hadvance
  refine (threadRun_step _ (threadStep_unlink holdest) rfl rfl).trans ?_
  refine (threadRun_writeHome (m := { m with ckpt := ts }) hlt).trans ?_
  refine (threadRun_step (.writeHome j t [] caller) rfl rfl rfl).trans ?_
  rw [Cache.flush, view_writes]
  refine (threadRun_step (.nextTail j t caller) rfl rfl rfl).trans ?_
  exact hadvance.trans (threadRun_step (.advance (.ret (_, _)) t caller) rfl rfl rfl)

/-- The loop of `do_commit` ends with room for the transaction, or with nothing to reclaim. -/
theorem threadRun_reclaim (h₀ : j₀.Placed) {nodes : List DirtyBlock} (hgen : u.gen nodes) :
    ∀ (log : List CommittedTxn) (m : TxnMgr) (j : Journal) (img : Image), m.dev = j₀.dev →
      m.ckpt = log → OnDisk u gens j img m.ckpt →
        ∃ m' j' img', ThreadRun (s.goto m (settled img) (.reclaim j nodes))
            (s.goto m' (settled img') (.commit (journalCommit j' (pendingBlocks nodes) []) nodes)) ∧
          m'.dev = j₀.dev ∧ OnDisk u gens j' img' m'.ckpt ∧ j'.head = j.head ∧
          (j'.HasRoom (txnOf nodes) ∨ m'.ckpt = []) := by
  intro log
  induction log with
  | nil =>
      intro m j img hdev hnone hdisk
      refine ⟨m, j, img, ?_, hdev, hdisk, rfl, .inr hnone⟩
      by_cases hspace : journalFreeSpace j < journalSpaceNeeded nodes.length 0
      · have hunlink : threadStep ⟨m, settled img, .unlink j (.reclaim nodes)⟩ =
            some ⟨m, settled img, resume j false (.reclaim nodes)⟩ := by
          simp only [threadStep, unlinkOldest, hnone]
        exact (threadRun_step _ (threadStep_noSpace hspace) rfl rfl).trans (threadRun_step _ hunlink rfl rfl)
      · exact threadRun_step _ (threadStep_space hspace) rfl rfl
  | cons t ts ih =>
      intro m j img hdev holdest hdisk
      by_cases hspace : journalFreeSpace j < journalSpaceNeeded nodes.length 0
      · have hone := threadRun_checkpoint (.reclaim nodes) (s := s) h₀ hdev holdest hdisk
        rw [holdest] at hdisk
        have hnext : OnDisk u gens _ _ ({ m with ckpt := ts } : TxnMgr).ckpt :=
          OnDisk.checkpoint (m := { m with ckpt := ts }) hdisk
        obtain ⟨m', j', img', hrun, hrest⟩ := ih { m with ckpt := ts } _ _ hdev rfl hnext
        refine ⟨m', j', img', ?_, hrest⟩
        exact (threadRun_step _ (threadStep_noSpace hspace) rfl rfl).trans (hone.trans hrun)
      · exact ⟨m, j, img, threadRun_step _ (threadStep_space hspace) rfl rfl, hdev, hdisk, rfl,
          .inl ((space_iff_txnOf (u.generation hgen).length_le).mp hspace)⟩

/-- The state after a commit of `nodes` on journal `j` and image `img`. -/
def afterCommit (s : Pipe) (m : TxnMgr) (j : Journal) (img : Image) (nodes : List DirtyBlock) : Pipe where
  mgr := finishCommit m (committed j (txnOf nodes)) nodes (.ok (j.nextSequence, j.head))
  disk := settled (commitImage j (txnOf nodes) img)
  pc := .lag (committed j (txnOf nodes))
  given := s.given ++ [nodes]
  logged := s.logged ++ [nodes]

/-- A call of `do_commit` whose transaction the region is large enough for returns, and the
commit has succeeded. -/
theorem run_doCommit {ok : Pipe → PipeAction → Prop} (h₀ : j₀.Placed) (hdev : s.mgr.dev = j₀.dev)
    {nodes : List DirtyBlock} (hj : s.pc.returned = some j) (hset : s.disk = settled img)
    (hdisk : OnDisk u s.logged j img s.mgr.ckpt) (hgen : u.gen nodes)
    (hlen : nodes.length + 2 ≤ j.maxlen.toNat) (hcall : ok s (.call (.doCommit nodes)))
    (hthread : ∀ s, ok s .thread) :
    ∃ m' j' img', Run Pipe.step ok s (s.afterCommit m' j' img' nodes) ∧ m'.dev = j₀.dev ∧
      OnDisk u s.logged j' img' m'.ckpt ∧ j'.head = j.head ∧ j'.HasRoom (txnOf nodes) := by
  obtain ⟨m', j', img', hrun, hdev', hdisk', hhead, hroom⟩ :=
    threadRun_reclaim (s := { s with given := s.given ++ [nodes] }) h₀ hgen s.mgr.ckpt s.mgr j img hdev
      rfl hdisk
  have hfits : j'.HasRoom (txnOf nodes) := by
    rcases hroom with hroom | hnone
    · exact hroom
    · obtain ⟨p, q, hlive, -⟩ := hdisk'.live
      rw [hnone, List.map_nil] at hlive
      rw [hlive.hasRoom, logLen_nil, txnOf_len, hdisk'.region.maxlen, ← hdisk.region.maxlen]
      omega
  have hcommit := threadRun_commit (s := { s with given := s.given ++ [nodes] }) (m := m')
    (d := settled img') nodes (journalCommit j' (pendingBlocks nodes) [])
  rw [run_journalCommit_nodes (hdisk'.region.placed h₀) (u.generation hgen).length_le,
    if_pos (show _ ≤ _ from hfits)] at hcommit
  have hfirst : Run Pipe.step ok s (({ s with given := s.given ++ [nodes] } : Pipe).goto s.mgr
      (settled img) (.reclaim j nodes)) := by
    refine .next .init hcall ?_
    rw [step, hj]
    simp [goto, ← hset, Call.entry, Call.generations]
  refine ⟨m', j', img', ?_, hdev', hdisk', hhead, hfits⟩
  have hreturned : Pipe.step (({ s with given := s.given ++ [nodes] } : Pipe).goto m'
      (settled (commitImage j' (txnOf nodes) img'))
      (.commit (.ret (.ok (j'.nextSequence, j'.head), committed j' (txnOf nodes))) nodes)) .thread =
        some { s with
          mgr := m'
          disk := settled (commitImage j' (txnOf nodes) img')
          pc := .link (committed j' (txnOf nodes)) nodes (.ok (j'.nextSequence, j'.head))
          given := s.given ++ [nodes]
          logged := s.logged ++ [nodes] } := rfl
  refine hfirst.trans (((hrun.trans hcommit).mono fun s a ha => ha ▸ hthread s).trans ?_)
  refine .next (.next .init (hthread _) hreturned) (hthread _) ?_
  simp [step, Pc.idle, threadStep, afterCommit, committing]

end Runs

/-! ## A region with room for one transaction -/

/-- Between two rounds of the commit loop. -/
structure AtTop {j₀ : Journal} (u : Upkeep j₀) (s : Pipe) (j : Journal) (img : Image) : Prop where
  dev : s.mgr.dev = j₀.dev
  pc : s.pc = .top j
  disk : s.disk = settled img
  log : OnDisk u s.logged j img s.mgr.ckpt

section OneBlock
variable {j₀ j : Journal} {u : Upkeep j₀} {s : Pipe} {img : Image} {n : DirtyBlock}
  {ok : Pipe → PipeAction → Prop}

theorem AtTop.doCommit (h : AtTop u s j img) (h₀ : j₀.Placed) (hmax : j₀.maxlen.toNat = 3)
    (hgen : u.gen [n]) (hcall : ok s (.call (.doCommit [n]))) (hthread : ∀ s, ok s .thread) :
    ∃ m' j' img', Run Pipe.step ok s (s.afterCommit m' j' img' [n]) ∧ m'.dev = j₀.dev ∧
      OnDisk u s.logged j' img' [] ∧ m'.ckpt = [] ∧ j'.head = j.head ∧ j'.HasRoom (txnOf [n]) := by
  have hret : s.pc.returned = some j := by rw [h.pc]; rfl
  have hlen : [n].length + 2 ≤ j.maxlen.toNat := by
    rw [h.log.region.maxlen, hmax]
    rfl
  obtain ⟨m', j', img', hrun, hdev, hdisk, hhead, hroom⟩ :=
    run_doCommit h₀ h.dev hret h.disk h.log hgen hlen hcall hthread
  obtain ⟨p, q, hlive, -⟩ := hdisk.live
  have hfull := hlive.hasRoom.mp hroom
  have hpairs := length_le_logLen (m'.ckpt.map fun t => txnOf t.nodes)
  rw [txnOf_len, hdisk.region.maxlen, hmax, List.length_singleton] at hfull
  rw [List.length_map] at hpairs
  have hnone : m'.ckpt = [] := List.length_eq_zero_iff.mp (by omega)
  rw [hnone] at hdisk
  exact ⟨m', j', img', hrun, hdev, hdisk, hnone, hhead, hroom⟩

variable (ok) in
/-- Any number of transactions can be committed one after the other. -/
theorem AtTop.commits (h : AtTop u s j img) (h₀ : j₀.Placed) (hmax : j₀.maxlen.toNat = 3)
    (hhead : j.head = 0) (hgen : u.gen [n])
    (hcall : ∀ s j, s.pc = .top j → ok s (.call (.doCommit [n]))) (hthread : ∀ s, ok s .thread)
    (k : ℕ) (hk : 3 * k < 2 ^ 64) :
    ∃ s' j' img', Run Pipe.step ok s s' ∧ AtTop u s' j' img' ∧ j'.head.toNat = 3 * k ∧
      s'.logged = s.logged ++ List.replicate k [n] ∧ s'.given = s.given ++ List.replicate k [n] := by
  induction k with
  | zero => exact ⟨s, j, img, .init, h, by rw [hhead]; rfl, by simp, by simp⟩
  | succ k ih =>
      obtain ⟨s', j', img', hrun, htop, hpos, hlogged, hgiven⟩ := ih (by omega)
      obtain ⟨m'', j'', img'', hcommit, hdev, hdisk, hnone, hsame, hroom⟩ :=
        htop.doCommit h₀ hmax hgen (hcall s' j' htop.pc) hthread
      have hbound : j''.OffsetsFit [n] := by
        intro _
        rw [hsame, hpos, List.length_singleton]
        omega
      have hlog := hdisk.commit hgen hroom hbound
      refine ⟨{ s'.afterCommit m'' j'' img'' [n] with pc := .top (committed j'' (txnOf [n])) },
        committed j'' (txnOf [n]), commitImage j'' (txnOf [n]) img'', (hrun.trans hcommit).trans
        (.next .init (hthread _) ?_), ⟨hdev, rfl, rfl, ?_⟩, ?_, ?_, ?_⟩
      · have hfew : threadStep (s'.afterCommit m'' j'' img'' [n]).toCore =
            some { (s'.afterCommit m'' j'' img'' [n]).toCore with
              pc := .top (committed j'' (txnOf [n])) } := by
          simp only [threadStep, afterCommit, finishCommit, hnone]
          rfl
        rw [step, if_neg (by simp [afterCommit, Pc.idle]), hfew]
        simp [afterCommit, committing]
      · rw [afterCommit, finishCommit, hnone]
        exact hlog
      · have hlen : (UInt64.ofNat (txnOf [n]).len).toNat = 3 := by rw [txnOf_len]; rfl
        rw [committed, UInt64.toNat_add, hlen, hsame, hpos]
        omega
      · rw [afterCommit, hlogged, List.replicate_succ', List.append_assoc]
      · rw [afterCommit, hgiven, List.replicate_succ', List.append_assoc]

variable (ok) in
/-- After so many transactions that the offsets are used up, the commit that finds the log
empty marks it empty again. -/
theorem AtTop.lastCommit (h : AtTop u s j img) (h₀ : j₀.Placed) (hmax : j₀.maxlen.toNat = 3)
    (hhead : j.head.toNat = 2 ^ 64 - 1) (hgen : u.gen [n]) (hcall : ok s (.call (.doCommit [n])))
    (hthread : ∀ s, ok s .thread) :
    ∃ m' j' img', Run Pipe.step ok s (s.afterCommit m' j' img' [n]) ∧
      OnDisk u s.logged j' img' [] ∧
      (jsuperOf (commitImage j' (txnOf [n]) img')).magic = journalMagic ∧
      (jsuperOf (commitImage j' (txnOf [n]) img')).start = journalEmpty := by
  obtain ⟨m', j', img', hrun, -, hdisk, -, hsame, -⟩ := h.doCommit h₀ hmax hgen hcall hthread
  obtain ⟨p, q, hlive, -⟩ := hdisk.live
  have hempty : j'.tail = j'.head := hlive.tail_eq_head.mpr rfl
  have hlast : j'.head = journalEmpty := by
    rw [hsame]
    exact UInt64.toNat_inj.mp hhead
  refine ⟨m', j', img', hrun, hdisk, ?_, ?_⟩
  all_goals
    rw [commitImage_eq, startWrite, if_pos hempty, jsuperOf, applyWrites_cons, applyWrites_nil,
      Function.update_self, decode_jsuperEncode]
  exact hlast

end OneBlock
end Pipe
end Logfs
