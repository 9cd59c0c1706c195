/-
`synthesis/trace_helpers.cpp`: from locks over trace positions to lists of symbols, and the blow-up of a list with the
states that `minimise` has removed between its symbols.
-/
import Liss.Abstraction.ConcurrentAutomaton
import Liss.Synthesis.Reorderings

namespace Liss

namespace Synthesis

/-- the symbols of the thread of a lock location, from its start to its end -/
def sectionSymbols (trace : List Symbol) (loc : LockLocation) : LockList :=
  ((splitTrace trace).filter fun l =>
    decide (loc.start.instructionId ≤ l.position) && decide (l.position ≤ loc.fin.instructionId) &&
      decide (l.threadId = loc.start.threadId)).map TraceLocation.symbol

/-- `locks_to_symbols` -/
def locksToSymbols (locks : Cnf Lock) (trace : List Symbol) : LockSymbols :=
  locks.map fun d => d.map fun l => l.locations.map (sectionSymbols trace)

end Synthesis

/-- `minimised_threads()[i]` -/
def Program.minimisedThread (p : Program) (i : ℕ) : AbstractCfg := p.minimisedThreads.getD i (AbstractCfg.empty i)

/-- `threads()[i]` -/
def Program.thread (p : Program) (i : ℕ) : AbstractCfg := p.threads.getD i (AbstractCfg.empty i)

/-- the edge that the search over `get_successors` finds -/
def AbstractCfg.edgeTo (c : AbstractCfg) (src dst : ℕ) : Option Edge := (c.getSuccessors src).find? fun e => e.dst = dst

/-- the symbols of the states between two symbols of one thread; without an edge (where the assertion fails) there are
none -/
def inserted (p : Program) (prev sy : Symbol) : List Symbol :=
  match (p.minimisedThread sy.loc.thread).edgeTo prev.loc.state sy.loc.state with
  | none => []
  | some e => e.inBetweeners.filterMap fun s => ((p.minimisedThread sy.loc.thread).getState s).nonActionSymbol

/-- the loop of `blow_up_trace`; `previous` holds the last symbol of each thread -/
def blowUpFrom (p : Program) (previous : ℕ → Option Symbol) : List Symbol → List Symbol
  | [] => []
  | sy :: trace =>
    (match previous sy.loc.thread with
      | none => []
      | some prev => inserted p prev sy) ++
    sy :: blowUpFrom p (Function.update previous sy.loc.thread (some sy)) trace

/-- `blow_up_trace` -/
def blowUpTrace (p : Program) (trace : List Symbol) : List Symbol := blowUpFrom p (fun _ => none) trace

theorem mem_blowUpFrom {p : Program} {s : Symbol} {trace : List Symbol} (previous : ℕ → Option Symbol) (h : s ∈ trace) :
    s ∈ blowUpFrom p previous trace := by
  induction trace generalizing previous with
  | nil => simp at h
  | cons sy trace ih =>
    rw [blowUpFrom, List.mem_append, List.mem_cons]
    rcases List.mem_cons.1 h with rfl | h
    · exact Or.inr (Or.inl rfl)
    · exact Or.inr (Or.inr (ih _ h))

/-- between neighbours of one thread the blow-up inserts the removed states -/
theorem inserted_mem_blowUpFrom {p : Program} {a b s : Symbol} {trace : List Symbol} (previous : ℕ → Option Symbol)
    (h : [a, b] <:+: trace) (ht : a.loc.thread = b.loc.thread) (hs : s ∈ inserted p a b) :
    s ∈ blowUpFrom p previous trace := by
  obtain ⟨pre, post, rfl⟩ := h
  induction pre generalizing previous with
  | nil => simp [blowUpFrom, ht, hs]
  | cons sy pre ih =>
    simp only [List.cons_append, blowUpFrom, List.mem_append, List.mem_cons]
    exact Or.inr (Or.inr (ih _))

/-- `blow_up_lock` -/
def blowUpLock (p : Program) (locks : LockSymbols) : LockSymbols :=
  locks.map fun d => d.map fun lists => lists.map fun list => blowUpTrace p list

end Liss
