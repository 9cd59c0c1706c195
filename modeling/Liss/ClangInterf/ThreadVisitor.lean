/-
`clang_interf/thread_visitor.h`, `clang_interf/thread_visitor.cpp`: from the functions of a file to the threads of a
program.

- `parseThread_parsed`, `parseThread_executions`: the form of the CFG that `parse_thread` leaves, and that it reads what
  the thread function means;
- `parseThread_total`, `recursion_rejected`: there is always an answer, and a thread that comes to a recursive function
  is an error;
- `frontEnd_correct`: the threads of a file;
- `threads_not_recursive`: none of them comes to a recursive function;
- `branch_lost`: the passes can lose a statement.
-/
import Liss.Cfg.Preparation
import Liss.Cfg.Program
import Liss.ClangInterf.Termination

namespace Liss

namespace FrontEnd

open AbstractCfg StatementVisitor

/-! ## Threads -/

/-- the marks at the two ends of the thread function -/
def markEnds (r : Inlined) : AbstractCfg :=
  (r.thread.markFinal r.exitState).modifyState r.entryState fun s => { s with returnState := r.exitState }

/-- `parse_thread` -/
def parseThread (u : TranslationUnit) (fuel : ℕ) (cfg : ClangCfg) (threadId : ℕ) (identifierStore : IdentifierStore) :
    Front (AbstractCfg × IdentifierStore) :=
  Front.bind (processFunction u fuel cfg (.empty threadId) identifierStore) fun r =>
    some (.ok (markEnds r, r.identifierStore))

/-- `is_thread_name` -/
def isThreadName (name : String) : Bool :=
  decide (name.length > "_thread".length) && ("thread_".isPrefixOf name || name.endsWith "_thread")

/-- the threads of `program`, and its store -/
structure Threads where
  threads : List AbstractCfg := []
  minimisedThreads : List AbstractCfg := []
  identifierStore : IdentifierStore := {}

/-- `add_thread` -/
def addThread (fuel : ℕ) (thread : AbstractCfg) (p : Threads) : Front Threads :=
  if p.threads.length = maxThreads then some (.error (.rangeError "Too many threads in program"))
  else
    (thread.prepare fuel).map fun r =>
      .ok { p with threads := p.threads ++ [r.1], minimisedThreads := p.minimisedThreads ++ [r.2] }

/-- `TraverseFunctionDecl` -/
def traverseFunctionDecl (u : TranslationUnit) (fuel : ℕ) (f : ℕ) (p : Threads) : Front Threads :=
  match (u.function f).body with
  | none => some (.ok p)
  | some cfg =>
    if isThreadName (u.function f).name then
      Front.bind (parseThread u fuel cfg p.threads.length p.identifierStore) fun r =>
        addThread fuel r.1 { p with identifierStore := r.2 }
    else some (.ok p)

/-- `HandleTranslationUnit`, up to the actions -/
def traverseDecls (u : TranslationUnit) (fuel : ℕ) : List ℕ → Threads → Front Threads
  | [], p => some (.ok p)
  | f :: l, p => Front.bind (traverseFunctionDecl u fuel f p) fun q => traverseDecls u fuel l q

/-! ## One thread -/

variable {u : TranslationUnit} {cfg : ClangCfg} {c d : AbstractCfg} {s t : IdentifierStore} {fuel fuel' threadId : ℕ}

theorem draft_empty (hs : s.Consistent) (threadId : ℕ) : Draft (.empty threadId) s := by
  have hstate : ∀ y, ((empty threadId).getState y).final = false ∧ ((empty threadId).getState y).action = none := by
    intro y
    cases y with
    | zero => exact ⟨rfl, rfl⟩
    | succ y => exact ⟨rfl, rfl⟩
  exact ⟨.empty threadId, everyEdge_empty threadId _, fun y => (hstate y).1, hs,
    fun y a ha => by rw [(hstate y).2] at ha; simp at ha⟩

theorem parseThread_body (hregular : Regular u cfg) (hs : s.Consistent)
    (h : parseThread u fuel cfg threadId s = some (.ok (c, t))) :
    ∃ r, Body (.empty threadId) s r (meaning u cfg) ∧ r.identifierStore = t ∧ markEnds r = c := by
  obtain ⟨r, hr, h⟩ := Front.bind_ok h
  obtain ⟨rfl, rfl⟩ := Prod.mk.inj (Except.ok.inj (Option.some.inj h))
  exact ⟨r, processFunction_body hregular (draft_empty hs threadId) hr, rfl, rfl⟩

theorem final_markEnds {r : Inlined} (hlt : r.exitState < r.thread.states.length)
    (hnone : ∀ y, (r.thread.getState y).final = false) (y : ℕ) :
    ((markEnds r).getState y).final = true ↔ y = r.exitState := by
  rw [markEnds, final_modifyState _ _ (f := fun s => { s with returnState := r.exitState }) fun _ => rfl, markFinal,
    getState_modifyState hlt]
  by_cases hy : r.exitState = y
  · simp [hy]
  · simp [hy, Ne.symm hy, hnone y]

theorem action_markEnds (r : Inlined) (y : ℕ) : ((markEnds r).getState y).action = (r.thread.getState y).action := by
  rw [markEnds, action_modifyState _ _ (f := fun s => { s with returnState := r.exitState }) fun _ => rfl, markFinal,
    action_modifyState _ _ (f := fun s => { s with final := true }) fun _ => rfl]

/-- **The CFG of a thread.** -/
theorem parseThread_parsed (hregular : Regular u cfg) (hs : s.Consistent)
    (h : parseThread u fuel cfg threadId s = some (.ok (c, t))) : c.Parsed := by
  obtain ⟨r, hr, -, rfl⟩ := parseThread_body hregular hs h
  have hdraft := hr.grows.draft
  have hfinal := final_markEnds hr.piece.exit.2 hdraft.unfinished
  have haction := action_markEnds r
  have hfront : r.entryState = 1 := hr.front
  have hentry := hr.piece.entry.2
  have hmarked := constructed_modifyState hdraft.constructed r.exitState (f := fun s => { s with final := true })
    fun _ => rfl
  refine ⟨constructed_modifyState hmarked r.entryState (f := fun s => { s with returnState := r.exitState })
    fun _ => rfl, ?_, ⟨?_, ?_⟩, fun y hy => ?_, hdraft.costless⟩
  · rw [markEnds, length_states_modifyState, markFinal, length_states_modifyState, ← hfront]
    exact hentry
  · rw [haction, ← hfront]
    exact hr.plain.1.1
  · rw [← Bool.not_eq_true, hfinal, ← hfront]
    exact hr.apart
  · obtain rfl := (hfinal y).1 hy
    refine ⟨(haction _).trans hr.plain.2.1, List.eq_nil_iff_forall_not_mem.2 fun e he => ?_⟩
    exact hr.last e.dst ⟨e, he, rfl⟩

/-- **What a thread reads.** -/
theorem parseThread_executions (hregular : Regular u cfg) (hs : s.Consistent)
    (h : parseThread u fuel cfg threadId s = some (.ok (c, t))) : c.executions t = meaning u cfg := by
  obtain ⟨r, hr, rfl, rfl⟩ := parseThread_body hregular hs h
  have hfinal := final_markEnds hr.piece.exit.2 hr.grows.draft.unfinished
  have hgraph : (markEnds r).graph r.identifierStore = r.thread.graph r.identifierStore :=
    graph_eq (action_markEnds r) fun x y => Iff.rfl
  have hfront : r.entryState = 1 := hr.front
  ext w
  rw [← hr.reads, WordGraph.mem_arrivals, ← hgraph, hfront]
  refine ⟨fun hread => ?_, fun harr => ⟨r.exitState, (hfinal _).2 rfl, harr⟩⟩
  obtain ⟨y, hy, harr⟩ := hread
  obtain rfl := (hfinal y).1 hy
  exact harr

/-- the thread can be minimised -/
theorem parseThread_fresh (hregular : Regular u cfg) (hs : s.Consistent)
    (h : parseThread u fuel cfg threadId s = some (.ok (c, t))) : c.Fresh ∧ c.getSuccessors 0 = [] := by
  obtain ⟨r, hr, -, rfl⟩ := parseThread_body hregular hs h
  have hfront : r.entryState = 1 := hr.front
  have hunentered := hr.unentered
  rw [hfront] at hunentered
  refine ⟨⟨hunentered, hr.grows.draft.constructed.direct⟩, List.eq_nil_iff_forall_not_mem.2 fun e he => ?_⟩
  have hedge : (empty threadId).HasEdge 0 e.dst := (hr.old 0 Nat.one_pos e.dst).1 ⟨e, he, rfl⟩
  exact absurd ((draft_empty hs threadId).hasEdge_lt hedge).2 fun h => h.2 (Nat.lt_one_iff.1 h.1)

/-- the end of the thread -/
theorem parseThread_ended (hregular : Regular u cfg) (hs : s.Consistent)
    (h : parseThread u fuel cfg threadId s = some (.ok (c, t))) : c.Ended := by
  have hread : ∃ w, w ∈ c.executions t := by
    rw [parseThread_executions hregular hs h]
    obtain ⟨r, hr, -⟩ := Front.bind_ok h
    obtain ⟨w, hw⟩ := exists_mem_executions hregular.returns hr
    exact ⟨w, fuel, hw⟩
  obtain ⟨r, hr, rfl, rfl⟩ := parseThread_body hregular hs h
  have hfinal := final_markEnds hr.piece.exit.2 hr.grows.draft.unfinished
  have hreturn : ((markEnds r).getState 1).returnState = r.exitState := by
    have hfront : r.entryState = 1 := hr.front
    have hlt : r.entryState < (r.thread.markFinal r.exitState).states.length := by
      rw [markFinal, length_states_modifyState]
      exact hr.piece.entry.2
    rw [markEnds, getState_modifyState hlt, if_pos hfront]
  have hlock : ∀ y, (r.thread.getState y).lockable = false → ((markEnds r).getState y).lockable = false := fun y hy =>
    lockable_modifyState _ (.inr fun _ h => h) (lockable_modifyState _ (.inr fun _ h => h) hy)
  refine ⟨fun y => ?_, ?_, ?_, ?_⟩
  · rw [hreturn]
    exact hfinal y
  · rw [hreturn]
    obtain ⟨w, y, hy, harr⟩ := hread
    exact (hfinal y).1 hy ▸ reached_of_arrives harr .refl
  · refine hlock 1 ?_
    rw [← show r.entryState = 1 from hr.front]
    exact hr.plain.1.2
  · rw [hreturn]
    exact hlock _ hr.plain.2.2

/-- the names stay -/
theorem parseThread_names (hregular : Regular u cfg) (hs : s.Consistent)
    (h : parseThread u fuel cfg threadId s = some (.ok (c, t))) :
    t.Consistent ∧ (∀ a, s.nameOf a ≠ none → t.nameOf a = s.nameOf a) ∧
      c.Named t ∧ c.threadId = threadId := by
  obtain ⟨r, hr, rfl, rfl⟩ := parseThread_body hregular hs h
  refine ⟨hr.grows.draft.consistent, hr.grows.names, fun y a ha => hr.grows.draft.named y a ?_, hr.grows.threadId⟩
  rw [← action_markEnds]
  exact ha

/-! ## Fuel -/

theorem parseThread_answers (hfuel : maxStates ≤ fuel) (cfg : ClangCfg) (threadId : ℕ) (s : IdentifierStore) :
    ∃ r, parseThread u fuel cfg threadId s = some r := by
  have hanswer : (processFunction u fuel cfg (.empty threadId) s).Answers fun _ => True := by
    refine (processFunction_answers (n := maxStates - 1) ?_ cfg (.empty threadId) s ?_).imp fun _ _ => trivial
    · simp only [maxStates] at hfuel ⊢
      omega
    · show maxStates ≤ 1 + (maxStates - 1)
      simp only [maxStates]
      omega
  obtain ⟨r, hr, -⟩ := hanswer.bind (Q := fun _ : AbstractCfg × IdentifierStore => True)
    (f := fun r => some (.ok (markEnds r, r.identifierStore))) fun _ _ => Front.answers_ok trivial
  exact ⟨r, hr⟩

theorem parseThread_le (hle : fuel ≤ fuel') (cfg : ClangCfg) (threadId : ℕ) (s : IdentifierStore) :
    Front.Le (parseThread u fuel cfg threadId s) (parseThread u fuel' cfg threadId s) :=
  (processFunction_le hle cfg _ s).bind fun _ => .refl _

/-- **`parse_thread` comes to an end.** Whatever is called, there is one answer as soon as calls may be as deep as a
thread has states. -/
theorem parseThread_total (u : TranslationUnit) (cfg : ClangCfg) (threadId : ℕ) (s : IdentifierStore) :
    ∃ r, ∀ fuel, maxStates ≤ fuel → parseThread u fuel cfg threadId s = some r := by
  obtain ⟨r, hr⟩ := parseThread_answers (u := u) (le_refl maxStates) cfg threadId s
  exact ⟨r, fun fuel hfuel => parseThread_le hfuel cfg threadId s r hr⟩

/-- a thread calls no recursive function -/
theorem not_recursive_of_parse {p : AbstractCfg × IdentifierStore}
    (h : parseThread u fuel cfg threadId s = some (.ok p)) {f : ClangCfg}
    (hf : Relation.ReflTransGen (Calls u) cfg f) : ¬Relation.TransGen (Calls u) f f := by
  obtain ⟨r, h, -⟩ := Front.bind_ok h
  apply not_calls_of_acc
  induction hf with
  | refl => exact acc_of_processFunction h
  | tail _ hcall ih => exact ih.inv hcall

/-- **Recursive threads are rejected.** -/
theorem recursion_rejected {f : ClangCfg} (hf : Relation.ReflTransGen (Calls u) cfg f)
    (hrec : Relation.TransGen (Calls u) f f) (hfuel : maxStates ≤ fuel) (threadId : ℕ) (s : IdentifierStore) :
    ∃ e, parseThread u fuel cfg threadId s = some (.error e) := by
  obtain ⟨r, hr⟩ := parseThread_answers (u := u) hfuel cfg threadId s
  cases r with
  | error e => exact ⟨e, hr⟩
  | ok p => exact absurd hrec (not_recursive_of_parse hr hf)

/-- a thread that calls itself -/
def selfBody : ClangCfg where
  blocks := [{ succs := [some 1] },
    { elements := [.artificial 1, .callExpr 3 (some 0) none [.declRefExpr 2 .other], .artificial 4],
      succs := [some 2] }, {}]
  entry := 0
  exit := 2
  entry_ne_exit := by decide
  range := by decide
  entry_empty := rfl
  exit_empty := ⟨rfl, rfl⟩
  succs := by simp

def selfUnit : TranslationUnit where
  functions := [⟨"thread_a", some selfBody⟩]
  decls := [0]

theorem selfUnit_rejected : Relation.TransGen (Calls selfUnit) selfBody selfBody ∧
    ∃ e, parseThread selfUnit maxStates selfBody 0 {} = some (.error e) := by
  have hcallees : elementsCallees selfUnit [] (selfBody.block 1).elements = [selfBody] := rfl
  have hcalls : Calls selfUnit selfBody selfBody := ⟨1, .single (by decide), hcallees ▸ List.mem_cons_self⟩
  exact ⟨.single hcalls, recursion_rejected .refl (.single hcalls) (le_refl _) 0 {}⟩

/-! ## All threads -/

/-- the bodies of the functions that are threads -/
def threadBodies (u : TranslationUnit) (l : List ℕ) : List ClangCfg :=
  l.filterMap fun f => if isThreadName (u.function f).name then (u.function f).body else none

/-- `c` is the CFG of the function `f`: it has the form that the passes rely on, and reads what the function means -/
structure Translates (u : TranslationUnit) (s : IdentifierStore) (f : ClangCfg) (c : AbstractCfg) : Prop where
  parsed : c.Parsed
  fresh : c.Fresh
  unused : c.getSuccessors 0 = []
  ended : c.Ended
  named : c.Named s
  reads : c.executions s = meaning u f

theorem parseThread_translates (hregular : Regular u cfg) (hs : s.Consistent)
    (h : parseThread u fuel cfg threadId s = some (.ok (c, t))) : Translates u t cfg c :=
  have hfresh := parseThread_fresh hregular hs h
  ⟨parseThread_parsed hregular hs h, hfresh.1, hfresh.2, parseThread_ended hregular hs h,
    (parseThread_names hregular hs h).2.2.1, parseThread_executions hregular hs h⟩

theorem Translates.of_names {f : ClangCfg} (h : Translates u s f c)
    (hnames : ∀ a, s.nameOf a ≠ none → t.nameOf a = s.nameOf a) : Translates u t f c := by
  refine ⟨h.parsed, h.fresh, h.unused, h.ended, fun y a ha => ?_, (executions_of_names h.named hnames).trans h.reads⟩
  rw [hnames a (h.named y a ha)]
  exact h.named y a ha

/-- the copies of a thread come from the CFG of its function -/
def Translated (u : TranslationUnit) (s : IdentifierStore) (f : ClangCfg) (r : AbstractCfg × AbstractCfg) : Prop :=
  ∃ (c : AbstractCfg) (fuel : ℕ), Translates u s f c ∧ c.prepare fuel = some r

/-- the threads that have been gathered from the functions `fs` -/
structure Gathered (u : TranslationUnit) (fs : List ClangCfg) (p : Threads) : Prop where
  consistent : p.identifierStore.Consistent
  sizes : p.threads.length = p.minimisedThreads.length
  translated : List.Forall₂ (Translated u p.identifierStore) fs (p.threads.zip p.minimisedThreads)
  program : ∀ ids, p.identifierStore.Within ids → ∃ q : Program, q.Built ∧ q.threads = p.threads ∧
    q.minimisedThreads = p.minimisedThreads ∧ q.identifiers = ids

/-- **One thread more.** -/
theorem Gathered.addThread {p q : Threads} {fs : List ClangCfg} {f : ClangCfg} (hp : Gathered u fs p)
    (hregular : Regular u f) (h1 : parseThread u fuel f p.threads.length p.identifierStore = some (.ok (c, t)))
    (h2 : addThread fuel c { p with identifierStore := t } = some (.ok q)) : Gathered u (fs ++ [f]) q := by
  obtain ⟨hconsistent, hnames, hnamed, hthread⟩ := parseThread_names hregular hp.consistent h1
  have hparsed := parseThread_parsed hregular hp.consistent h1
  unfold FrontEnd.addThread at h2
  split_ifs at h2 with hfull
  · simp at h2
  obtain ⟨⟨x, m⟩, hprepare, heq⟩ := Option.map_eq_some_iff.1 h2
  obtain rfl := Except.ok.inj heq
  refine ⟨hconsistent, by simp [hp.sizes], ?_, fun ids hids => ?_⟩
  · show List.Forall₂ _ _ ((p.threads ++ [x]).zip (p.minimisedThreads ++ [m]))
    rw [List.zip_append hp.sizes]
    refine List.rel_append (hp.translated.imp fun f r hr => ?_) (.cons ?_ .nil)
    · obtain ⟨d, n, hd, hn⟩ := hr
      exact ⟨d, n, hd.of_names hnames, hn⟩
    · exact ⟨c, fuel, parseThread_translates hregular hp.consistent h1, hprepare⟩
  · obtain ⟨q, hq, hthreads, hminimised, rfl⟩ := hp.program ids (hids.of_names hnames)
    have hw : c.WellFormed q.identifiers ∧ c.threadId = q.noThreads := by
      refine ⟨hparsed.wellFormed hids hnamed, ?_⟩
      rw [hthread, Program.noThreads, hthreads]
    obtain ⟨q', hadd, h1, h2, h3⟩ := Program.addThread_of_prepare hw (by rw [hthreads]; exact hfull) hprepare
    exact ⟨q', .addThread hq hparsed.constructed.proper.ranged.sized hadd, by rw [h1, hthreads],
      by rw [h2, hminimised], h3⟩

theorem threadBodies_cons (u : TranslationUnit) (f : ℕ) (l : List ℕ) :
    threadBodies u (f :: l) = threadBodies u [f] ++ threadBodies u l := by
  rw [threadBodies, threadBodies, threadBodies, ← List.filterMap_append, List.singleton_append]

/-- a declaration, if its function is a thread -/
theorem Gathered.decl {p q : Threads} {fs : List ClangCfg} {f : ℕ} (hp : Gathered u fs p)
    (hregular : ∀ g ∈ threadBodies u [f], Regular u g) (h : traverseFunctionDecl u fuel f p = some (.ok q)) :
    Gathered u (fs ++ threadBodies u [f]) q := by
  unfold traverseFunctionDecl at h
  cases hbody : (u.function f).body with
  | none =>
    simp only [hbody] at h
    obtain rfl := Except.ok.inj (Option.some.inj h)
    simpa [threadBodies, hbody] using hp
  | some g =>
    simp only [hbody] at h
    split_ifs at h with hname
    · have hthread : threadBodies u [f] = [g] := by simp [threadBodies, hbody, hname]
      rw [hthread] at hregular ⊢
      obtain ⟨⟨c, t⟩, h1, h2⟩ := Front.bind_ok h
      exact hp.addThread (hregular g (List.mem_singleton_self g)) h1 h2
    · obtain rfl := Except.ok.inj (Option.some.inj h)
      simpa [threadBodies, hname] using hp

/-- **All threads.** -/
theorem Gathered.decls {p q : Threads} {fs : List ClangCfg} {l : List ℕ} (hp : Gathered u fs p)
    (hregular : ∀ g ∈ threadBodies u l, Regular u g) (h : traverseDecls u fuel l p = some (.ok q)) :
    Gathered u (fs ++ threadBodies u l) q := by
  induction l generalizing p fs with
  | nil =>
    obtain rfl := Except.ok.inj (Option.some.inj h)
    simpa [threadBodies] using hp
  | cons f l ih =>
    rw [threadBodies_cons] at hregular ⊢
    rw [traverseDecls] at h
    obtain ⟨x, hx, h⟩ := Front.bind_ok h
    have hfirst := hp.decl (fun g hg => hregular g (List.mem_append_left _ hg)) hx
    rw [← List.append_assoc]
    exact ih hfirst (fun g hg => hregular g (List.mem_append_right _ hg)) h

/-! ## Enough fuel -/

/-- with enough fuel the answer is always the same -/
def Settles {α : Type} (x : ℕ → Front α) (r : Except FrontError α) : Prop := ∃ N, ∀ fuel, N ≤ fuel → x fuel = some r

theorem Settles.bind {α β : Type} {x : ℕ → Front α} {g : ℕ → α → Front β} {r : Except FrontError α}
    (hx : Settles x r) (hg : ∀ a, r = .ok a → ∃ r', Settles (fun fuel => g fuel a) r') :
    ∃ r', Settles (fun fuel => (x fuel).bind (g fuel)) r' := by
  obtain ⟨N, hN⟩ := hx
  cases r with
  | error e =>
    refine ⟨.error e, N, fun fuel hf => ?_⟩
    show (x fuel).bind (g fuel) = _
    rw [hN fuel hf]
    rfl
  | ok a =>
    obtain ⟨r', N', hN'⟩ := hg a rfl
    refine ⟨r', max N N', fun fuel hf => ?_⟩
    show (x fuel).bind (g fuel) = _
    rw [hN fuel (le_of_max_le_left hf)]
    exact hN' fuel (le_of_max_le_right hf)

/-- `x = 1` between the artificial statements of a body -/
def bumpBody : ClangCfg where
  blocks := [{ succs := [some 1] },
    { elements := [.artificial 1, .binAssign 4 (.declRefExpr 2 (.var "x" false false "")) (.other 3 []), .artificial 5],
      succs := [some 2] }, {}]
  entry := 0
  exit := 2
  entry_ne_exit := by decide
  range := by decide
  entry_empty := rfl
  exit_empty := ⟨rfl, rfl⟩
  succs := by simp

/-- `while (nondet) bump();` -/
def loopBody : ClangCfg where
  blocks := [{ succs := [some 1] }, { elements := [.artificial 1], succs := [some 2] },
    { elements := [.declRefExpr 2 (.var "nondet" false false "")], terminator := some .whileStmt,
      succs := [some 3, some 4] },
    { elements := [.callExpr 4 (some 0) none [.declRefExpr 3 .other]], succs := [some 2] },
    { elements := [.artificial 5], succs := [some 5] }, {}]
  entry := 0
  exit := 5
  entry_ne_exit := by decide
  range := by decide
  entry_empty := rfl
  exit_empty := ⟨rfl, rfl⟩
  succs := by simp

/-- a thread that calls a function in a loop -/
def loopUnit : TranslationUnit where
  functions := [⟨"bump", some bumpBody⟩, ⟨"thread_a", some loopBody⟩]
  decls := [0, 1]

theorem loopUnit_bodies : threadBodies loopUnit loopUnit.decls = [loopBody] := by
  have hnames : isThreadName "bump" = false ∧ isThreadName "thread_a" = true := by decide +kernel
  simp [threadBodies, loopUnit, TranslationUnit.function, hnames]

theorem loopUnit_run : ∃ p, traverseDecls loopUnit 40 loopUnit.decls {} = some (.ok p) ∧ p.threads.length = 1 := by
  have hrun : ((traverseDecls loopUnit 40 loopUnit.decls {}).map fun r => r.toOption.map fun p => p.threads.length) =
      some (some 1) := by decide +kernel
  obtain ⟨r, hr, hcount⟩ := Option.map_eq_some_iff.1 hrun
  obtain ⟨p, hp, hcount⟩ := Option.map_eq_some_iff.1 hcount
  cases r with
  | error e => simp [Except.toOption] at hp
  | ok p' =>
    obtain rfl : p' = p := Option.some.inj hp
    exact ⟨p', hr, hcount⟩

/-- **No recursion.** Where threads have been gathered, none of them comes to a recursive function. -/
theorem threads_not_recursive {p q : Threads} {l : List ℕ} (h : traverseDecls u fuel l p = some (.ok q))
    (hcfg : cfg ∈ threadBodies u l) {f : ClangCfg} (hf : Relation.ReflTransGen (Calls u) cfg f) :
    ¬Relation.TransGen (Calls u) f f := by
  induction l generalizing p with
  | nil => simp [threadBodies] at hcfg
  | cons d l ih =>
    rw [threadBodies_cons] at hcfg
    rw [traverseDecls] at h
    obtain ⟨x, hx, h⟩ := Front.bind_ok h
    rcases List.mem_append.1 hcfg with hfirst | hrest
    · unfold traverseFunctionDecl at hx
      cases hbody : (u.function d).body with
      | none => simp [threadBodies, hbody] at hfirst
      | some g =>
        simp only [hbody] at hx
        split_ifs at hx with hname
        · obtain rfl : cfg = g := by simpa [threadBodies, hbody, hname] using hfirst
          obtain ⟨r, hr, -⟩ := Front.bind_ok hx
          exact not_recursive_of_parse hr hf
        · simp [threadBodies, hname] at hfirst
    · exact ih h hrest

/-- the function that is called in the loop -/
theorem loopUnit_not_recursive : Calls loopUnit loopBody bumpBody ∧
    ¬Relation.TransGen (Calls loopUnit) bumpBody bumpBody := by
  have hreach : loopBody.Reachable 3 :=
    ((Relation.ReflTransGen.single (b := 1) (by decide)).tail (c := 2) (by decide)).tail (by decide)
  have hcallees : elementsCallees loopUnit [] (loopBody.block 3).elements = [bumpBody] := rfl
  have hcalls : Calls loopUnit loopBody bumpBody := ⟨3, hreach, hcallees ▸ List.mem_cons_self⟩
  obtain ⟨p, hp, -⟩ := loopUnit_run
  have hbody : loopBody ∈ threadBodies loopUnit loopUnit.decls := loopUnit_bodies ▸ List.mem_cons_self
  exact ⟨hcalls, threads_not_recursive hp hbody (.single hcalls)⟩

/-! ## A lost statement -/

/-- `while (nondet) { if (nondet) x = 1; else y = 1; z = 1; }` -/
def branchBody : ClangCfg where
  blocks := [{ succs := [some 1] }, { elements := [.artificial 1], succs := [some 2] },
    { elements := [.declRefExpr 2 (.var "nondet" false false "")], terminator := some .whileStmt,
      succs := [some 3, some 8] },
    { elements := [.declRefExpr 3 (.var "nondet" false false "")], terminator := some .ifStmt,
      succs := [some 4, some 5] },
    { elements := [.binAssign 6 (.declRefExpr 4 (.var "x" false false "")) (.other 5 [])], succs := [some 6] },
    { elements := [.binAssign 9 (.declRefExpr 7 (.var "y" false false "")) (.other 8 [])], succs := [some 6] },
    { elements := [.binAssign 12 (.declRefExpr 10 (.var "z" false false "")) (.other 11 [])], succs := [some 7] },
    { succs := [some 2] }, { elements := [.artificial 13], succs := [some 9] }, {}]
  entry := 0
  exit := 9
  entry_ne_exit := by decide
  range := by decide
  entry_empty := rfl
  exit_empty := ⟨rfl, rfl⟩
  succs := by simp

/-- a loop around a branch and a statement behind it -/
def branchUnit : TranslationUnit where
  functions := [⟨"thread_a", some branchBody⟩]
  decls := [0]

theorem branchBody_regular : Regular branchUnit branchBody := by
  refine regular_of_closed (l := [branchBody]) ?_ ?_ ?_ List.mem_cons_self
  · have hcallees : (branchBody.blocks.flatMap fun b => elementsCallees branchUnit [] b.elements) = [] := rfl
    simp [hcallees]
  · have hreturns : branchBody.Returns :=
      (((Relation.ReflTransGen.single (b := 1) (by decide)).tail (c := 2) (by decide)).tail (c := 8) (by decide)).tail
        (by decide)
    simp [hreturns]
  · simp only [List.mem_cons, List.not_mem_nil, or_false, forall_eq]
    decide

theorem branch_parse : (Option.bind (parseThread branchUnit 60 branchBody 0 {}) Except.toOption).isSome = true := by
  decide +kernel

/-- the thread and the names -/
@[irreducible] def branchThread : AbstractCfg × IdentifierStore :=
  (Option.bind (parseThread branchUnit 60 branchBody 0 {}) Except.toOption).get branch_parse

theorem parseThread_branch : parseThread branchUnit 60 branchBody 0 {} = some (.ok branchThread) := by
  have h : Option.bind (parseThread branchUnit 60 branchBody 0 {}) Except.toOption = some branchThread := by
    rw [branchThread, Option.some_get]
  obtain ⟨r, hr, h⟩ := Option.bind_eq_some_iff.1 h
  cases r with
  | error e => simp [Except.toOption] at h
  | ok p => rw [hr, Option.some.inj h]

theorem branch_prepare : (branchThread.1.prepare 60).isSome = true := by decide +kernel

/-- the copies of the thread -/
@[irreducible] def branchCopies : AbstractCfg × AbstractCfg := (branchThread.1.prepare 60).get branch_prepare

theorem prepare_branch : branchThread.1.prepare 60 = some branchCopies := by rw [branchCopies, Option.some_get]

def assignZ : Event := ⟨.write, some "z", false, false⟩

theorem branch_writes : ∃ w ∈ branchThread.1.executions branchThread.2, assignZ ∈ w := by
  have step : ∀ {u v : ℕ} {w : List Event}, (∃ e ∈ branchThread.1.getSuccessors u, e.dst = v) → u ≠ 10 →
      (branchThread.1.graph branchThread.2).Arrives 10 v w →
      (branchThread.1.graph branchThread.2).Arrives 10 u (branchThread.1.reads branchThread.2 u ++ w) :=
    fun he hu h => .step hu rfl he h
  have hz : branchThread.1.reads branchThread.2 6 = [assignZ] := by decide +kernel
  have hback : (branchThread.1.graph branchThread.2).Arrives 10 6 _ :=
    step (v := 7) (by decide +kernel) (by decide) (step (v := 3) (by decide +kernel) (by decide) (step (v := 9)
      (by decide +kernel) (by decide) (step (by decide +kernel) (by decide) (.here rfl))))
  have hword : (branchThread.1.graph branchThread.2).Arrives 10 1 _ :=
    step (v := 2) (by decide +kernel) (by decide) (step (v := 3) (by decide +kernel) (by decide) (step (v := 4)
      (by decide +kernel) (by decide) (step (v := 5) (by decide +kernel) (by decide) (step (by decide +kernel)
        (by decide) hback))))
  exact ⟨_, ⟨10, by decide +kernel, hword⟩, by simp [hz]⟩

/-- The assignment after the branch is lost: in the graph of the states that are kept it is on a way to either side of
the branch, and so no edge to it leads forward. -/
theorem branch_lost : ¬ ∀ (u : TranslationUnit) (f : ClangCfg) (fuel : ℕ) (p : AbstractCfg × IdentifierStore)
    (r : AbstractCfg × AbstractCfg), Regular u f → parseThread u fuel f 0 {} = some (.ok p) →
    p.1.prepare fuel = some r → r.1.executions p.2 = meaning u f := by
  intro hall
  have hcopies := hall branchUnit branchBody 60 branchThread branchCopies branchBody_regular parseThread_branch
    prepare_branch
  have hthread := parseThread_executions branchBody_regular IdentifierStore.consistent_empty parseThread_branch
  obtain ⟨w, hw, hz⟩ := branch_writes
  rw [hthread, ← hcopies] at hw
  obtain ⟨y, hy⟩ := mem_executions hw hz
  have hstates : ∀ x ∈ branchCopies.1.states, x.action.map branchThread.2.event ≠ some assignZ := by decide +kernel
  have haction : (branchCopies.1.getState y).action.map branchThread.2.event = some assignZ := Option.mem_toList.1 hy
  by_cases hlt : y < branchCopies.1.states.length
  · rw [getState, List.getD_eq_getElem _ _ hlt] at haction
    exact hstates _ (List.getElem_mem hlt) haction
  · rw [getState, List.getD_eq_default _ _ (not_lt.1 hlt)] at haction
    simp at haction

end FrontEnd

end Liss
