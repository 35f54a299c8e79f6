import HftOrderbook.Feed.Pipeline
import HftOrderbook.Proof.Fanout

/-!
# Threads change nothing

Whatever the schedule, a replay with threads that ends gives what the reference path gives. For the
sharded replay this is said instrument by instrument: its messages all go to one shard, where they
stay in order, and no other shard holds anything for it.
-/

namespace HftOrderbook

/-! ### One consumer -/

theorem pipelinedThreads_inv {buf : List UInt8} {book : OrderBook} {ringCapacity : UInt64}
    {schedule : List (Thread Unit)} {s : Fanout Unit Message (OrderBook × Nat)}
    (hrun : pipelinedThreads buf book ringCapacity schedule = some s) :
    s.Inv (fun _ => ()) applyCounting (book, 0) (framedMessages buf) := by
  unfold pipelinedThreads at hrun
  obtain ⟨ring, hring, hs⟩ := Option.bind_eq_some_iff.mp hrun
  obtain rfl := Option.some.inj hs
  exact (Fanout.inv_start _ _ _ _ hring).run schedule

theorem replayPipelined_eq_replaySingleThreaded (buf : List UInt8) (book : OrderBook)
    (ringCapacity : UInt64) (schedule : List (Thread Unit))
    {s : Fanout Unit Message (OrderBook × Nat)}
    (hrun : pipelinedThreads buf book ringCapacity schedule = some s) (hend : s.Terminated) :
    (s.lanes ()).applied = framedMessages buf ∧
      replayPipelined buf book ringCapacity schedule = some (replaySingleThreaded buf book) := by
  have hinv := pipelinedThreads_inv hrun
  have hall : (framedMessages buf).filter (fun _ => decide (() = ())) = framedMessages buf :=
    List.filter_eq_self.mpr fun _ _ => rfl
  constructor
  · exact (hinv.applied_of_terminated hend ()).trans hall
  · rw [replayPipelined, hrun, Option.bind_eq_bind, Option.bind_some, if_pos hend,
      hinv.state_of_terminated hend (), replaySingleThreaded]
    exact congrArg (fun messages => some (messages.foldl applyCounting (book, 0))) hall

def framedAdd (locate ref : UInt8) : List UInt8 :=
  [0, 36, 0x41, 0, locate, 0, 0, 0, 0, 0, 0, 0, 1, 0, 0, 0, 0, 0, 0, 0, ref, 0x42, 0, 0, 0, 10,
    0x41, 0x42, 0x43, 0x20, 0x20, 0x20, 0x20, 0x20, 0, 0, 0, 100]

def twoAdds : List UInt8 := framedAdd 1 5 ++ framedAdd 2 6

/-- The two threads in turn. The consumer comes too early at first and reads the flag once before
the producer has raised it. -/
def inTurn : List (Thread Unit) := (List.replicate 38 [.worker (), .producer]).flatten

theorem replayPipelined_eq_replaySingleThreaded_twoAdds :
    ∃ s, pipelinedThreads twoAdds .empty 2 inTurn = some s ∧ s.Terminated ∧
      (s.lanes ()).applied = framedMessages twoAdds ∧
      replayPipelined twoAdds .empty 2 inTurn = some (replaySingleThreaded twoAdds .empty) := by
  obtain ⟨s, hrun, hend⟩ :
      ∃ s, pipelinedThreads twoAdds .empty 2 inTurn = some s ∧ s.Terminated :=
    ⟨_, rfl, by decide +kernel⟩
  exact ⟨s, hrun, hend, replayPipelined_eq_replaySingleThreaded twoAdds .empty 2 inTurn hrun hend⟩

/-! ### A consumer for each shard -/

theorem shardedThreads_inv {buf : List UInt8} {nWorkers : UInt32}
    {schedule : List (Thread (Fin (workerCount nWorkers).toNat))}
    {s : Fanout (Fin (workerCount nWorkers).toNat) Message BookSet}
    (hrun : shardedThreads buf nWorkers schedule = some s) :
    s.Inv (shard nWorkers ·.stockLocate) BookSet.apply {} (framedMessages buf) := by
  unfold shardedThreads at hrun
  obtain ⟨ring, hring, hs⟩ := Option.bind_eq_some_iff.mp hrun
  obtain rfl := Option.some.inj hs
  exact (Fanout.inv_start _ _ _ _ hring).run schedule

/-- The shards of a whole replay merge into what the reference path gives. -/
theorem BookSet.agreeAt_shards (messages : List Message) (nWorkers : UInt32)
    {shards : Fin (workerCount nWorkers).toNat → BookSet}
    (hshards : ∀ w, shards w =
      (messages.filter (shard nWorkers ·.stockLocate = w)).foldl BookSet.apply {})
    (locate : UInt16) :
    BookSet.AgreeAt locate (BookSet.mergeAll {} shards (List.finRange _))
      (messages.foldl BookSet.apply {}) := by
  have hothers : ∀ w, w ≠ shard nWorkers locate → BookSet.AgreeAt locate (shards w) {} := by
    intro w hw
    rw [hshards]
    refine BookSet.AgreeAt.foldl_of_forall_ne ⟨rfl, rfl⟩ fun m hm hlocate => hw ?_
    have hshard := of_decide_eq_true (List.mem_filter.mp hm).2
    rw [← hshard, hlocate]
  have howner : BookSet.AgreeAt locate (shards (shard nWorkers locate))
      (messages.foldl BookSet.apply {}) := by
    rw [hshards]
    exact BookSet.AgreeAt.foldl_filter ⟨rfl, rfl⟩ _ (fun m hm => by simp [hm]) _
  exact (BookSet.agreeAt_mergeAll (List.nodup_finRange _) (List.mem_finRange _) hothers
    ⟨rfl, rfl⟩).trans howner

theorem agreeAt_of_replaySharded {buf : List UInt8} {nWorkers : UInt32}
    {schedule : List (Thread (Fin (workerCount nWorkers).toNat))} {out : BookSet} {n : Nat}
    (hrun : replaySharded buf {} nWorkers schedule = some (out, n)) :
    (∀ locate, BookSet.AgreeAt locate out ((framedMessages buf).foldl BookSet.apply {})) ∧
      n = (framedMessages buf).length := by
  unfold replaySharded at hrun
  obtain ⟨s, hs, hout⟩ := Option.bind_eq_some_iff.mp hrun
  have hinv := shardedThreads_inv hs
  split_ifs at hout with hend
  obtain ⟨rfl, rfl⟩ := Prod.mk.inj (Option.some.inj hout)
  exact ⟨BookSet.agreeAt_shards (framedMessages buf) nWorkers (hinv.state_of_terminated hend),
    hinv.sent_of_terminated hend⟩

theorem replaySharded_agrees (buf : List UInt8) (nWorkers : UInt32)
    (schedule : List (Thread (Fin (workerCount nWorkers).toNat))) {out : BookSet} {n : Nat}
    (hrun : replaySharded buf {} nWorkers schedule = some (out, n)) :
    (∀ locate,
      out.books.lookup locate =
        ((framedMessages buf).foldl BookSet.apply {}).books.lookup locate ∧
      out.symbols.lookup locate =
        ((framedMessages buf).foldl BookSet.apply {}).symbols.lookup locate) ∧
      n = (framedMessages buf).length :=
  agreeAt_of_replaySharded hrun

def oneByOne (nWorkers : UInt32) : List (Thread (Fin (workerCount nWorkers).toNat)) :=
  List.replicate 13 .producer ++
    (List.finRange _).flatMap fun w => List.replicate 24 (.worker w)

theorem replaySharded_agrees_twoAdds :
    ∃ out, replaySharded twoAdds {} 2 (oneByOne 2) = some (out, 2) ∧
      out.books.lookup 2 = ((framedMessages twoAdds).foldl BookSet.apply {}).books.lookup 2 := by
  obtain ⟨⟨out, n⟩, hrun⟩ : ∃ result, replaySharded twoAdds {} 2 (oneByOne 2) = some result :=
    Option.isSome_iff_exists.mp (by decide)
  obtain ⟨hagrees, hcount⟩ := replaySharded_agrees twoAdds 2 (oneByOne 2) hrun
  have htwo : (framedMessages twoAdds).length = 2 := by decide
  rw [hcount, htwo] at hrun
  exact ⟨out, hrun, (hagrees 2).1⟩

end HftOrderbook
