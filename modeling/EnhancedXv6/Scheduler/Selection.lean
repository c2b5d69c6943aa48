import EnhancedXv6.Scheduler.Dispatch

/-! What a timer tick does on one CPU of the MLFQ build: `mlfq_yield`, and
`sched_mlfq` if the interrupted process has yielded. No other section runs in
between, so the scan of `sched_mlfq` is a fold over the table. -/

namespace EnhancedXv6.Scheduler

open Foundation Process Function List Option

variable {n : Nat} {s t : Mlfq n}

/-- The order of selection: level, then time of entry, then place in the table. -/
def rank (table : Table n) (slot : Fin n) : Int ×ₗ Int ×ₗ Fin n :=
  toLex ((table slot).queueLevel, toLex ((table slot).inTime, slot))

/-- The comparison of the loop is the order of selection, because the loop looks
at a slot after every smaller one. -/
theorem better_iff_rank {table : Table n} {slot selected : Fin n} (earlier : selected < slot) :
    Policy.mlfq.better (table slot) (table selected) = true ↔
      rank table slot < rank table selected := by
  have later : ¬ slot < selected := earlier.asymm
  simp [Policy.better, rank, Prod.Lex.toLex_lt_toLex, later]

/-- `tick_ctr` counts at least the ticks of the slice. It can be ahead of them
after `sys_set_priority`, which yields without a reset. -/
def Counts (p : Proc) (used : Int) : Prop :=
  0 ≤ p.tickCtr ∧ (p.state = .running → used ≤ p.tickCtr)

theorem Counts.stopped (counts : Counts p used) (same : q.tickCtr = p.tickCtr)
    (stopped : q.state ≠ .running) : Counts q used' :=
  ⟨same ▸ counts.1, fun runs => absurd runs stopped⟩

theorem Counts.roused (p : Proc) (ticks : Nat) : Counts (p.roused ticks) used := by
  simp [Counts, Proc.roused]

theorem Counts.wakeupOn (counts : Counts p used) : Counts (p.wakeupOn chan ticks) used := by
  unfold Proc.wakeupOn
  split
  · exact Counts.roused p ticks
  · exact counts

theorem Counts.killedBy (counts : Counts p used) : Counts (p.killedBy ticks) used := by
  unfold Proc.killedBy
  split
  · exact Counts.roused _ ticks
  · exact counts

end EnhancedXv6.Scheduler
