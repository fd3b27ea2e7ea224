import Gol.StoreWorkLists

/-! Stops in the Postgres store (`put_stop`, `stopped` and `open_runs_under`, `postgres.rs`). A row of `runs` holds
the columns a stop reads beside its spec. An older server's row has none of them until the next connect fills them, so
each statement reads it by its spec. -/

namespace Gol
open Library

/-- A row of `runs`, with the columns its stops are read by. -/
structure StopRow extends RunRow where
  id : RunId
  threadId : Option String
  parentRun : Option RunId
  storedSeq : Option Nat
  deriving DecidableEq

structure StopTables where
  /-- In the order they were stored. -/
  runs : List StopRow
  runEvents : List EventRow
  stops : List StopEntry
  /-- The last number taken of `gol_order`. -/
  order : Nat

/-- `nullif(value, '')`. -/
def nullif (value : Option String) : Option String := value.filter fun text => text ≠ ""

namespace StopRow

/-- The columns `put_run` writes. -/
def ofRun (spec : RunSpec) (storedSeq : Option Nat) : StopRow :=
  { spec, id := spec.runId, ownerIssuer := some spec.owner.issuer, ownerSubject := some spec.owner.subject,
    threadId := threadOf spec, parentRun := spec.lineage.parent, storedSeq }

/-- What an older server writes. -/
def ofOlder (spec : RunSpec) (storedSeq : Option Nat) : StopRow :=
  { spec, id := spec.runId, ownerIssuer := none, ownerSubject := none, threadId := none, parentRun := none, storedSeq }

variable (row : StopRow)

/-- The columns of a row without them, from its spec. -/
def fill : StopRow := if row.ownerIssuer.isNone then .ofRun row.spec row.storedSeq else row

def thread : Option String := row.threadId.or (nullif (row.spec.metadataGet sessionId))

def parent : Option RunId := row.parentRun.or row.spec.lineage.parent

def principal : Principal := (row.ownerIssuer.getD row.spec.owner.issuer, row.ownerSubject.getD row.spec.owner.subject)

def filledOf (owner : Owner) : Bool := row.ownerIssuer = some owner.issuer && row.ownerSubject = some owner.subject

def unfilledOf (owner : Owner) : Bool :=
  row.ownerIssuer.isNone && row.spec.owner.issuer = owner.issuer && row.spec.owner.subject = owner.subject

def mine (owner : Owner) : Bool := row.filledOf owner || row.unfilledOf owner

/-- Whether the row is of a child of `above`. -/
def childOf (above : RunId) : Bool :=
  row.parentRun = some above || row.ownerIssuer.isNone && row.spec.lineage.parent = some above

/-- Whether the stop names the run of the row. -/
def namedBy (stop : StopEntry) : Bool :=
  stop.principal = row.principal && match stop.scope with
    | .run id => id = row.id
    | .thread thread => row.storedSeq.getD 0 < stop.number ∧ row.thread = some thread
    | .owner => row.storedSeq.getD 0 < stop.number

end StopRow

namespace StopTables

def empty : StopTables := ⟨[], [], [], 0⟩

variable (db : StopTables)

/-- A new stop takes the next number; a conflict with an earlier one of its scope takes one more, and writes that. -/
def putStop (owner : Owner) (scope : StopScope) : StopTables :=
  let same (stop : StopEntry) : Bool := stop.principal = principal owner && stop.scope = scope
  if db.stops.any same then
    { db with
      order := db.order + 2
      stops := db.stops.map fun stop => if same stop then { stop with number := db.order + 2 } else stop }
  else { db with order := db.order + 1, stops := db.stops ++ [⟨principal owner, scope, db.order + 1⟩] }

/-- A run stored by this server, or by an older one. The number is taken before the conflict shows. -/
def putRun (older : Bool) (run : StoredRun) : StopTables :=
  if db.runs.any fun row => row.id = run.spec.runId then { db with order := db.order + 1 } else
  { db with
    runs := db.runs ++ [(if older then StopRow.ofOlder else StopRow.ofRun) run.spec (some (db.order + 1))]
    runEvents := db.runEvents ++ (run.events.zipIdx 1).map fun event =>
      { runId := run.spec.runId, seq := event.2, body := event.1, terminal := isTerminal event.1.payload : EventRow }
    order := db.order + 1 }

/-- The next connect fills the columns of every row without them (`ensure_schema`). -/
def fillColumns : StopTables :=
  { db with runs := db.runs.map StopRow.fill }

def above (row : StopRow) : List StopRow := db.runs.filter fun above => some above.id = row.parent

/-- The run, then each run above it. The query ends within as many rounds as there are rows. -/
def chain (run : RunId) : List StopRow := rounds db.above (db.runs.length + 1) (db.runs.filter fun row => row.id = run)

def stopped (run : RunId) : Bool := (db.chain run).any fun row => db.stops.any row.namedBy

def isOpen (row : StopRow) : Bool := !db.runEvents.any fun event => event.runId = row.id && event.terminal

def children (run : RunId) : List RunId := (db.runs.filter fun row => row.childOf run).map StopRow.id

/-- The run of `owner`, then the runs below it. -/
def tree (owner : Owner) (run : RunId) : List RunId :=
  rounds db.children (db.runs.length + 1) ((db.runs.filter fun row => row.id = run && row.mine owner).map StopRow.id)

def rowsUnder (owner : Owner) : StopScope → List StopRow
  | .run run =>
      (db.tree owner run).flatMap fun id => db.runs.filter fun row => row.id = id && row.mine owner && db.isOpen row
  | .thread thread =>
      (db.runs.filter fun row => row.filledOf owner && row.threadId = some thread && db.isOpen row) ++
        db.runs.filter fun row => row.unfilledOf owner && row.spec.metadataGet sessionId = some thread && db.isOpen row
  | .owner =>
      (db.runs.filter fun row => row.filledOf owner && db.isOpen row) ++
        db.runs.filter fun row => row.unfilledOf owner && db.isOpen row

/-- The row's run, with its events in their order. -/
def withEvents (row : StopRow) : StoredRun :=
  ⟨row.spec, ((db.runEvents.filter (·.runId = row.id)).insertionSort (·.seq ≤ ·.seq)).map EventRow.body⟩

def openRunsUnder (owner : Owner) (scope : StopScope) : List StoredRun := (db.rowsUnder owner scope).map db.withEvents

def run (id : RunId) : Option StoredRun := (db.runs.find? fun row => row.id = id).map db.withEvents

/-- A stop names the row's run or one above it. -/
def Covered (row : StopRow) : Prop := ∃ top, Makes db.above row top ∧ ∃ stop ∈ db.stops, top.namedBy stop = true

end StopTables

/-! ### The rows stored -/

/-- The row's columns are filled from its spec, or not filled. -/
def StopRow.Read (row : StopRow) : Prop := ∃ number, row = .ofRun row.spec number ∨ row = .ofOlder row.spec number

namespace StopTables

/-- The tables hold each run once, its columns read from its spec, after its parent, whose owner and session it
carries. -/
structure Sound (db : StopTables) : Prop where
  read : ∀ row ∈ db.runs, row.Read
  nodup : (db.runs.map StopRow.id).Nodup
  flagged : ∀ event ∈ db.runEvents, event.terminal = isTerminal event.body.payload
  bounded : ∀ row ∈ db.runs, row.storedSeq.getD 0 ≤ db.order
  parents : ∀ before row after, db.runs = before ++ row :: after → ∀ parent, row.spec.lineage.parent = some parent →
    ∃ above ∈ before, above.id = parent ∧ above.spec.owner = row.spec.owner ∧
      above.spec.metadataGet sessionId = row.spec.metadataGet sessionId

end StopTables

namespace StopRow

variable {row : StopRow} {owner : Owner}

theorem nullif_session (spec : RunSpec) : nullif (spec.metadataGet sessionId) = threadOf spec := by
  rw [nullif, threadOf]
  congr
  funext text
  by_cases hempty : text = ""
  · simp [hempty]
  · simp [hempty]

theorem Read.id_eq (h : row.Read) : row.id = row.spec.runId := by
  obtain ⟨number, heq | heq⟩ := h <;> rw [heq] <;> rfl

theorem Read.fill_eq (h : row.Read) : row.fill = .ofRun row.spec row.storedSeq := by
  obtain ⟨number, heq | heq⟩ := h
  · rw [heq]
    rfl
  · rw [heq]
    rfl

theorem Read.thread_eq (h : row.Read) : row.thread = threadOf row.spec := by
  obtain ⟨number, heq | heq⟩ := h
  · rw [heq, thread, nullif_session]
    exact Option.or_self
  · rw [heq, thread, nullif_session]
    exact Option.none_or

theorem Read.parent_eq (h : row.Read) : row.parent = row.spec.lineage.parent := by
  obtain ⟨number, heq | heq⟩ := h
  · rw [heq]
    exact Option.or_self
  · rw [heq]
    exact Option.none_or

theorem Read.principal_eq (h : row.Read) : row.principal = Gol.principal row.spec.owner := by
  obtain ⟨number, heq | heq⟩ := h <;> rw [heq] <;> rfl

theorem Read.childOf_iff (h : row.Read) {above : RunId} :
    row.childOf above = true ↔ row.spec.lineage.parent = some above := by
  obtain ⟨number, heq | heq⟩ := h
  · rw [heq, childOf, Bool.or_eq_true, Bool.and_eq_true, decide_eq_true_eq, decide_eq_true_eq]
    simp [ofRun]
  · rw [heq, childOf, Bool.or_eq_true, Bool.and_eq_true, decide_eq_true_eq, decide_eq_true_eq]
    simp [ofOlder]

theorem Read.filledOf_iff (h : row.Read) :
    row.filledOf owner = true ↔ row.ownerIssuer.isSome ∧ row.spec.owner.is owner = true := by
  obtain ⟨number, heq | heq⟩ := h <;> rw [heq] <;> simp [filledOf, ofRun, ofOlder, Owner.is]

theorem unfilledOf_iff : row.unfilledOf owner = true ↔ row.ownerIssuer = none ∧ row.spec.owner.is owner = true := by
  simp [unfilledOf, Owner.is, and_assoc]

theorem Read.mine_iff (h : row.Read) : row.mine owner = true ↔ row.spec.owner.is owner = true := by
  rw [mine, Bool.or_eq_true, h.filledOf_iff, unfilledOf_iff]
  cases row.ownerIssuer <;> simp

/-- What a stop of `scope` by the row's principal, put after the row was stored, names. -/
def inScope (row : StopRow) : StopScope → Prop
  | .run run => run = row.id
  | .thread thread => row.thread = some thread
  | .owner => True

end StopRow

namespace StopTables

variable {db : StopTables} {row top : StopRow} {owner : Owner} {scope : StopScope}

theorem namedBy_new {stop : StopEntry} (hbound : row.storedSeq.getD 0 < stop.number) :
    row.namedBy stop = true ↔ stop.principal = row.principal ∧ row.inScope stop.scope := by
  rw [StopRow.namedBy, Bool.and_eq_true, decide_eq_true_eq]
  refine and_congr_right fun _ => ?_
  cases stop.scope with
  | run run => simp [StopRow.inScope]
  | thread thread => simp [StopRow.inScope, hbound]
  | owner => simp [StopRow.inScope, hbound]

theorem inScope_of_namedBy {stop : StopEntry} (h : row.namedBy stop = true) :
    stop.principal = row.principal ∧ row.inScope stop.scope := by
  rw [StopRow.namedBy, Bool.and_eq_true, decide_eq_true_eq] at h
  refine h.imp_right fun hscope => ?_
  cases hstop : stop.scope with
  | run run =>
      rw [hstop] at hscope
      show run = row.id
      exact of_decide_eq_true hscope
  | thread thread =>
      rw [hstop] at hscope
      show row.thread = some thread
      exact (of_decide_eq_true hscope).2
  | owner => trivial

/-- The stops after a new one name what they named, and what it names. -/
theorem Sound.named_putStop (h : db.Sound) (hrow : row ∈ db.runs) :
    (∃ stop ∈ (db.putStop owner scope).stops, row.namedBy stop = true) ↔
      (∃ stop ∈ db.stops, row.namedBy stop = true) ∨ principal owner = row.principal ∧ row.inScope scope := by
  have hbound : row.storedSeq.getD 0 < db.order + 1 := Nat.lt_succ_of_le (h.bounded row hrow)
  have hbound' : row.storedSeq.getD 0 < db.order + 2 := Nat.lt_succ_of_lt hbound
  have hsame_iff : ∀ stop : StopEntry, (stop.principal = principal owner && stop.scope = scope) = true ↔
      stop.principal = principal owner ∧ stop.scope = scope := by simp
  rw [putStop]
  split
  · next hsame =>
    obtain ⟨old, hold, hscope⟩ := List.any_eq_true.mp hsame
    rw [hsame_iff] at hscope
    constructor
    · rintro ⟨stop, hstop, hnames⟩
      obtain ⟨was, hwas, rfl⟩ := List.mem_map.mp hstop
      split at hnames
      · next his =>
        obtain ⟨hprincipal, hinScope⟩ := inScope_of_namedBy hnames
        rw [hsame_iff] at his
        exact .inr ⟨his.1 ▸ hprincipal, his.2 ▸ hinScope⟩
      · exact .inl ⟨was, hwas, hnames⟩
    · have hnew : principal owner = row.principal ∧ row.inScope scope →
          ∃ stop ∈ db.stops.map fun stop => if stop.principal = principal owner && stop.scope = scope then
            { stop with number := db.order + 2 } else stop, row.namedBy stop = true := by
        intro hnew
        refine ⟨{ old with number := db.order + 2 }, List.mem_map.mpr ⟨old, hold, by simp [hscope]⟩, ?_⟩
        exact (namedBy_new hbound').mpr ⟨hscope.1.trans hnew.1, hscope.2 ▸ hnew.2⟩
      rintro (⟨stop, hstop, hnames⟩ | hreached)
      · by_cases his : stop.principal = principal owner ∧ stop.scope = scope
        · obtain ⟨hprincipal, hinScope⟩ := inScope_of_namedBy hnames
          exact hnew ⟨his.1 ▸ hprincipal, his.2 ▸ hinScope⟩
        · exact ⟨stop, List.mem_map.mpr ⟨stop, hstop, if_neg ((hsame_iff stop).not.mpr his)⟩, hnames⟩
      · exact hnew hreached
  · constructor
    · rintro ⟨stop, hstop, hnames⟩
      rcases List.mem_append.mp hstop with hstop | hstop
      · exact .inl ⟨stop, hstop, hnames⟩
      · rw [List.mem_singleton.mp hstop] at hnames
        exact .inr (inScope_of_namedBy hnames)
    · rintro (⟨stop, hstop, hnames⟩ | hnew)
      · exact ⟨stop, List.mem_append_left _ hstop, hnames⟩
      · exact ⟨_, List.mem_append_right _ (List.mem_singleton_self _), (namedBy_new hbound).mpr hnew⟩

theorem putStop_runs : (db.putStop owner scope).runs = db.runs := by
  rw [putStop]
  split <;> rfl

theorem putStop_runEvents : (db.putStop owner scope).runEvents = db.runEvents := by
  rw [putStop]
  split <;> rfl

theorem le_putStop_order : db.order ≤ (db.putStop owner scope).order := by
  rw [putStop]
  split
  · exact Nat.le_add_right _ _
  · exact Nat.le_add_right _ _

theorem Sound.putStop (h : db.Sound) : (db.putStop owner scope).Sound where
  read := by
    rw [putStop_runs]
    exact h.read
  nodup := by
    rw [putStop_runs]
    exact h.nodup
  flagged := by
    rw [putStop_runEvents]
    exact h.flagged
  bounded row hrow := by
    rw [putStop_runs] at hrow
    exact Nat.le_trans (h.bounded row hrow) le_putStop_order
  parents := by
    rw [putStop_runs]
    exact h.parents

theorem sound_empty : empty.Sound where
  read _ hrow := by cases hrow
  nodup := List.nodup_nil
  flagged _ hevent := by cases hevent
  bounded _ hrow := by cases hrow
  parents before row after hruns := by
    have hempty : ([] : List StopRow) = before ++ row :: after := hruns
    simp at hempty

/-- A child put once its parent is stored, with its parent's owner and session, by a server of either age. -/
theorem Sound.putRun (h : db.Sound) (older : Bool) {run : StoredRun}
    (hpromised : ∀ parent, run.spec.lineage.parent = some parent →
    ∃ above ∈ db.runs, above.id = parent ∧ above.spec.owner = run.spec.owner ∧
      above.spec.metadataGet sessionId = run.spec.metadataGet sessionId) : (db.putRun older run).Sound := by
  rw [StopTables.putRun]
  split
  · exact { h with bounded := fun row hrow => Nat.le_succ_of_le (h.bounded row hrow) }
  · next hnew =>
    have hspec : ((if older then StopRow.ofOlder else StopRow.ofRun) run.spec (some (db.order + 1))).spec =
        run.spec := by
      cases older <;> rfl
    have hid : ((if older then StopRow.ofOlder else StopRow.ofRun) run.spec (some (db.order + 1))).id =
        run.spec.runId := by
      cases older <;> rfl
    refine ⟨fun row hrow => ?_, ?_, fun event hevent => ?_, fun row hrow => ?_,
      fun before row after hruns parent hparent => ?_⟩
    · rcases List.mem_append.mp hrow with hrow | hrow
      · exact h.read row hrow
      · rw [List.mem_singleton.mp hrow]
        cases older
        · exact ⟨_, .inl rfl⟩
        · exact ⟨_, .inr rfl⟩
    · rw [List.map_append, List.nodup_append]
      refine ⟨h.nodup, List.nodup_singleton _, ?_⟩
      rintro id hmem other hother rfl
      rw [List.map_singleton, List.mem_singleton, hid] at hother
      obtain ⟨row, hrow, hrowId⟩ := List.mem_map.mp hmem
      exact hnew (List.any_eq_true.mpr ⟨row, hrow, decide_eq_true (hrowId.trans hother)⟩)
    · rcases List.mem_append.mp hevent with hevent | hevent
      · exact h.flagged event hevent
      · obtain ⟨_, -, rfl⟩ := List.mem_map.mp hevent
        rfl
    · rcases List.mem_append.mp hrow with hrow | hrow
      · exact Nat.le_succ_of_le (h.bounded row hrow)
      · rw [List.mem_singleton.mp hrow]
        cases older <;> exact Nat.le_refl _
    · rcases List.eq_nil_or_concat after with rfl | ⟨rest, last, rfl⟩
      · obtain ⟨rfl, hlast⟩ := List.append_inj' hruns rfl
        rw [← List.head_eq_of_cons_eq hlast, hspec] at hparent ⊢
        exact hpromised parent hparent
      · have hsplit : db.runs ++ [(if older then StopRow.ofOlder else StopRow.ofRun) run.spec (some (db.order + 1))] =
            (before ++ row :: rest) ++ [last] := by simpa using hruns
        exact h.parents before row rest (List.append_inj' hsplit rfl).1 parent hparent

theorem Sound.fillColumns (h : db.Sound) : db.fillColumns.Sound where
  read row hrow := by
    obtain ⟨old, hold, rfl⟩ := List.mem_map.mp hrow
    exact (h.read old hold).fill_eq ▸ ⟨_, .inl rfl⟩
  nodup := by
    have hids : (db.runs.map StopRow.fill).map StopRow.id = db.runs.map StopRow.id := by
      rw [List.map_map]
      refine List.map_congr_left fun row hrow => ?_
      rw [Function.comp_apply, (h.read row hrow).fill_eq, (h.read row hrow).id_eq]
      rfl
    exact hids ▸ h.nodup
  flagged := h.flagged
  bounded row hrow := by
    obtain ⟨old, hold, rfl⟩ := List.mem_map.mp hrow
    rw [(h.read old hold).fill_eq]
    exact h.bounded old hold
  parents before row after hruns parent hparent := by
    obtain ⟨olds, rest, hold, rfl, hrest⟩ := List.map_eq_append_iff.mp hruns
    obtain ⟨old, later, rfl, rfl, -⟩ := List.map_eq_cons_iff.mp hrest
    have hfill : ∀ row ∈ db.runs, row.fill.spec = row.spec ∧ row.fill.id = row.id := by
      intro row hrow
      rw [(h.read row hrow).fill_eq, (h.read row hrow).id_eq]
      exact ⟨rfl, rfl⟩
    have hmem : old ∈ db.runs := hold ▸ List.mem_append_right _ (List.mem_cons_self ..)
    rw [(hfill old hmem).1] at hparent ⊢
    obtain ⟨above, habove, hid, howner, hsession⟩ := h.parents olds old later hold parent hparent
    obtain ⟨hspec, hsame⟩ := hfill above (hold ▸ List.mem_append_left _ habove)
    exact ⟨above.fill, List.mem_map_of_mem habove, hsame.trans hid, hspec ▸ howner, hspec ▸ hsession⟩

/-! ### Up and down the lineages -/

/-- The row's place in the table. -/
def place (db : StopTables) (id : RunId) : Nat := (db.runs.map StopRow.id).idxOf id

theorem Sound.unique (h : db.Sound) {row' : StopRow} (hrow : row ∈ db.runs) (hrow' : row' ∈ db.runs)
    (hid : row.id = row'.id) :
    row = row' :=
  List.inj_on_of_nodup_map h.nodup hrow hrow' hid

theorem place_lt (hrow : row ∈ db.runs) : db.place row.id < db.runs.length := by
  have hlt : db.place row.id < (db.runs.map StopRow.id).length :=
    List.idxOf_lt_length_iff.mpr (List.mem_map_of_mem hrow)
  rwa [List.length_map] at hlt

theorem Sound.parent (h : db.Sound) (hrow : row ∈ db.runs) {parent : RunId}
    (hparent : row.spec.lineage.parent = some parent) :
    ∃ above ∈ db.runs, above.id = parent ∧ above.spec.owner = row.spec.owner ∧
      above.spec.metadataGet sessionId = row.spec.metadataGet sessionId ∧ db.place parent < db.place row.id := by
  obtain ⟨before, after, hruns⟩ := List.append_of_mem hrow
  obtain ⟨above, habove, hid, howner, hsession⟩ := h.parents before row after hruns parent hparent
  refine ⟨above, hruns ▸ List.mem_append_left _ habove, hid, howner, hsession, ?_⟩
  have hnodup := h.nodup
  rw [hruns, List.map_append, List.map_cons] at hnodup
  have hnot : row.id ∉ before.map StopRow.id := fun hmem =>
    List.disjoint_of_nodup_append hnodup hmem (List.mem_cons_self ..)
  have hmem : parent ∈ before.map StopRow.id := hid ▸ List.mem_map_of_mem habove
  rw [place, place, hruns, List.map_append, List.idxOf_append_of_mem hmem, List.idxOf_append_of_notMem hnot]
  exact Nat.lt_of_lt_of_le (List.idxOf_lt_length_iff.mpr hmem) (Nat.le_add_right _ _)

theorem Sound.mem_above (h : db.Sound) (hrow : row ∈ db.runs) :
    top ∈ db.above row ↔ top ∈ db.runs ∧ row.spec.lineage.parent = some top.id := by
  rw [above, List.mem_filter, decide_eq_true_eq, (h.read row hrow).parent_eq]
  exact and_congr_right fun _ => eq_comm

theorem Sound.mem_children (h : db.Sound) {parent id : RunId} :
    id ∈ db.children parent ↔ ∃ row ∈ db.runs, row.id = id ∧ row.spec.lineage.parent = some parent := by
  rw [children, List.mem_map]
  constructor
  · rintro ⟨row, hmem, hid⟩
    obtain ⟨hrow, hchild⟩ := List.mem_filter.mp hmem
    exact ⟨row, hrow, hid, (h.read row hrow).childOf_iff.mp hchild⟩
  · rintro ⟨row, hrow, hid, hparent⟩
    exact ⟨row, List.mem_filter.mpr ⟨hrow, (h.read row hrow).childOf_iff.mpr hparent⟩, hid⟩

/-- What is above a stored row is stored, with the row's owner and thread. -/
theorem Sound.makes_above (h : db.Sound) (hrow : row ∈ db.runs) (hmakes : Makes db.above row top) :
    top ∈ db.runs ∧ top.spec.owner = row.spec.owner ∧ threadOf top.spec = threadOf row.spec := by
  induction hmakes with
  | refl => exact ⟨hrow, rfl, rfl⟩
  | tail _ hstep ih =>
      obtain ⟨hmid, howner, hthread⟩ := ih
      obtain ⟨htop, hparent⟩ := (h.mem_above hmid).mp hstep
      obtain ⟨above, habove, hid, howner', hsession, -⟩ := h.parent hmid hparent
      rw [h.unique habove htop hid] at howner' hsession
      exact ⟨htop, howner'.trans howner, by rw [← hthread, threadOf, threadOf, hsession]⟩

theorem Sound.makes_down (h : db.Sound) (hrow : row ∈ db.runs) (hmakes : Makes db.above row top) :
    Makes db.children top.id row.id := by
  induction hmakes with
  | refl => exact .refl
  | @tail mid top hup hstep ih =>
      have hmid := (h.makes_above hrow hup).1
      exact .head (h.mem_children.mpr ⟨mid, hmid, rfl, ((h.mem_above hmid).mp hstep).2⟩) ih

theorem Sound.makes_up (h : db.Sound) (htop : top ∈ db.runs) {id : RunId} (hmakes : Makes db.children top.id id) :
    ∃ row ∈ db.runs, row.id = id ∧ Makes db.above row top := by
  induction hmakes with
  | refl => exact ⟨top, htop, rfl, .refl⟩
  | tail _ hstep ih =>
      obtain ⟨mid, hmid, hmidId, hup⟩ := ih
      obtain ⟨row, hrow, hid, hparent⟩ := h.mem_children.mp hstep
      exact ⟨row, hrow, hid, .head ((h.mem_above hrow).mpr ⟨hmid, hmidId ▸ hparent⟩) hup⟩

/-- The walk of `stopped` meets every row above the run's. -/
theorem Sound.stopped_iff (h : db.Sound) {id : RunId} :
    db.stopped id = true ↔ ∃ row ∈ db.runs, row.id = id ∧ db.Covered row := by
  have hchain : ∀ top, top ∈ db.chain id ↔ ∃ row ∈ db.runs.filter (fun row => row.id = id), Makes db.above row top := by
    intro top
    refine @mem_rounds _ _ (fun row => db.place row.id) _ _ _ (fun row => row ∈ db.runs) ?_ ?_
    · intro row hrow above habove
      obtain ⟨hstored, hparent⟩ := (h.mem_above hrow).mp habove
      obtain ⟨-, -, -, -, -, hless⟩ := h.parent hrow hparent
      exact ⟨hstored, hless⟩
    · intro row hrow
      have hrow := List.mem_of_mem_filter hrow
      exact ⟨hrow, Nat.lt_succ_of_lt (place_lt hrow)⟩
  simp only [stopped, List.any_eq_true, hchain, List.mem_filter, decide_eq_true_eq, Covered]
  constructor
  · rintro ⟨top, ⟨row, ⟨hrow, hid⟩, hmakes⟩, hnamed⟩
    exact ⟨row, hrow, hid, top, hmakes, hnamed⟩
  · rintro ⟨row, hrow, hid, top, hmakes, hnamed⟩
    exact ⟨top, ⟨row, ⟨hrow, hid⟩, hmakes⟩, hnamed⟩

theorem Sound.stopped_row (h : db.Sound) (hrow : row ∈ db.runs) : db.stopped row.id = true ↔ db.Covered row := by
  refine h.stopped_iff.trans ⟨?_, fun hcovered => ⟨row, hrow, rfl, hcovered⟩⟩
  rintro ⟨row', hrow', hid, hcovered⟩
  exact h.unique hrow' hrow hid ▸ hcovered

theorem Sound.covered_putStop (h : db.Sound) (hrow : row ∈ db.runs) : (db.putStop owner scope).Covered row ↔
    db.Covered row ∨ ∃ top, Makes db.above row top ∧ principal owner = top.principal ∧ top.inScope scope := by
  have habove : (db.putStop owner scope).above = db.above := by
    funext row
    rw [above, above, putStop_runs]
  rw [Covered, Covered, habove, ← exists_or]
  refine exists_congr fun top => ?_
  rw [← and_or_left]
  exact and_congr_right fun hmakes => h.named_putStop (h.makes_above hrow hmakes).1

/-! ### The work list -/

theorem Sound.mem_tree (h : db.Sound) {run id : RunId} : id ∈ db.tree owner run ↔
    ∃ top ∈ db.runs, top.id = run ∧ top.spec.owner.is owner = true ∧ Makes db.children top.id id := by
  have hrounds : id ∈ db.tree owner run ↔
      ∃ id' ∈ (db.runs.filter fun row => row.id = run && row.mine owner).map StopRow.id, Makes db.children id' id := by
    refine @mem_rounds _ _ (fun id => db.runs.length - db.place id) _ _ _ (fun _ => True) ?_ ?_
    · intro above _ below hbelow
      obtain ⟨row, hrow, hid, hparent⟩ := h.mem_children.mp hbelow
      obtain ⟨-, -, -, -, -, hless⟩ := h.parent hrow hparent
      have hplace := place_lt hrow
      rw [hid] at hless hplace
      exact ⟨trivial, by omega⟩
    · exact fun id _ => ⟨trivial, Nat.lt_succ_of_le (Nat.sub_le _ _)⟩
  rw [hrounds]
  constructor
  · rintro ⟨id', hmem, hmakes⟩
    obtain ⟨top, htop, rfl⟩ := List.mem_map.mp hmem
    obtain ⟨htop, hmine⟩ := List.mem_filter.mp htop
    rw [Bool.and_eq_true, decide_eq_true_eq, (h.read top htop).mine_iff] at hmine
    exact ⟨top, htop, hmine.1, hmine.2, hmakes⟩
  · rintro ⟨top, htop, hid, howner, hmakes⟩
    refine ⟨top.id, List.mem_map_of_mem (List.mem_filter.mpr ⟨htop, ?_⟩), hmakes⟩
    rw [Bool.and_eq_true, decide_eq_true_eq, (h.read top htop).mine_iff]
    exact ⟨hid, howner⟩

/-- The query meets each run of the tree once: a run has one parent, and is not below itself. -/
theorem Sound.nodup_tree (h : db.Sound) (run : RunId) : (db.tree owner run).Nodup := by
  refine nodup_rounds (fun above => ?_) (fun {a a' b} ha ha' => ?_) ?_ fun a ha b hb hbelow => ?_
  · exact h.nodup.sublist (List.filter_sublist.map _)
  · obtain ⟨row, hrow, hid, hparent⟩ := h.mem_children.mp ha
    obtain ⟨row', hrow', hid', hparent'⟩ := h.mem_children.mp ha'
    rw [h.unique hrow hrow' (hid.trans hid'.symm), hparent', Option.some.injEq] at hparent
    exact hparent.symm
  · exact h.nodup.sublist (List.filter_sublist.map _)
  · have hrun : ∀ id ∈ (db.runs.filter fun row => row.id = run && row.mine owner).map StopRow.id, id = run := by
      intro id hmem
      obtain ⟨row, hrow, rfl⟩ := List.mem_map.mp hmem
      exact of_decide_eq_true (Bool.and_eq_true_iff.mp (List.mem_filter.mp hrow).2).1
    have hless : ∀ {a b}, Relation.TransGen (fun a b => b ∈ db.children a) a b → db.place a < db.place b := by
      intro a b hbelow
      have hstep : ∀ {a b}, b ∈ db.children a → db.place a < db.place b := by
        intro a b hb
        obtain ⟨row, hrow, rfl, hparent⟩ := h.mem_children.mp hb
        obtain ⟨-, -, -, -, -, hless⟩ := h.parent hrow hparent
        exact hless
      induction hbelow with
      | single hb => exact hstep hb
      | tail _ hb ih => exact Nat.lt_trans ih (hstep hb)
    have hself := hless hbelow
    rw [hrun a ha, hrun b hb] at hself
    exact Nat.lt_irrefl _ hself

/-- Whether the list of `scope` has the open row of the principal. A row that is not filled is in a thread by its
session. -/
def listed (db : StopTables) (owner : Owner) (row : StopRow) : StopScope → Prop
  | .run run => ∃ top, Makes db.above row top ∧ top.id = run ∧ top.spec.owner.is owner = true
  | .thread thread =>
      row.ownerIssuer.isSome ∧ row.threadId = some thread ∨ row.ownerIssuer = none ∧
        row.spec.metadataGet sessionId = some thread
  | .owner => True

theorem Sound.mem_rowsUnder (h : db.Sound) : row ∈ db.rowsUnder owner scope ↔
    row ∈ db.runs ∧ row.spec.owner.is owner = true ∧ db.isOpen row = true ∧ db.listed owner row scope := by
  have hsome : row.ownerIssuer.isSome ∨ row.ownerIssuer = none := by
    cases row.ownerIssuer <;> simp
  cases scope with
  | run run =>
      simp only [rowsUnder, List.mem_flatMap, List.mem_filter, Bool.and_eq_true, decide_eq_true_eq, h.mem_tree, listed]
      constructor
      · rintro ⟨id, ⟨top, htop, hid, howner, hmakes⟩, hrow, ⟨rfl, hmine⟩, hopen⟩
        obtain ⟨row', hrow', hsame, hup⟩ := h.makes_up htop hmakes
        rw [h.unique hrow' hrow hsame] at hup
        exact ⟨hrow, (h.read row hrow).mine_iff.mp hmine, hopen, top, hup, hid, howner⟩
      · rintro ⟨hrow, howner, hopen, top, hup, hid, htop⟩
        refine ⟨row.id, ⟨top, (h.makes_above hrow hup).1, hid, htop, h.makes_down hrow hup⟩, hrow, ⟨rfl, ?_⟩, hopen⟩
        exact (h.read row hrow).mine_iff.mpr howner
  | thread thread =>
      simp only [rowsUnder, List.mem_append, List.mem_filter, Bool.and_eq_true, decide_eq_true_eq,
        StopRow.unfilledOf_iff, listed]
      constructor
      · rintro (⟨hrow, ⟨hfilled, hthread⟩, hopen⟩ | ⟨hrow, ⟨⟨hnone, howner⟩, hsession⟩, hopen⟩)
        · obtain ⟨hissuer, howner⟩ := (h.read row hrow).filledOf_iff.mp hfilled
          exact ⟨hrow, howner, hopen, .inl ⟨hissuer, hthread⟩⟩
        · exact ⟨hrow, howner, hopen, .inr ⟨hnone, hsession⟩⟩
      · rintro ⟨hrow, howner, hopen, ⟨hissuer, hthread⟩ | ⟨hnone, hsession⟩⟩
        · exact .inl ⟨hrow, ⟨(h.read row hrow).filledOf_iff.mpr ⟨hissuer, howner⟩, hthread⟩, hopen⟩
        · exact .inr ⟨hrow, ⟨⟨hnone, howner⟩, hsession⟩, hopen⟩
  | owner =>
      simp only [rowsUnder, List.mem_append, List.mem_filter, Bool.and_eq_true, StopRow.unfilledOf_iff,
        listed, and_true]
      constructor
      · rintro (⟨hrow, hfilled, hopen⟩ | ⟨hrow, ⟨-, howner⟩, hopen⟩)
        · exact ⟨hrow, ((h.read row hrow).filledOf_iff.mp hfilled).2, hopen⟩
        · exact ⟨hrow, howner, hopen⟩
      · rintro ⟨hrow, howner, hopen⟩
        rcases hsome with hissuer | hnone
        · exact .inl ⟨hrow, (h.read row hrow).filledOf_iff.mpr ⟨hissuer, howner⟩, hopen⟩
        · exact .inr ⟨hrow, ⟨hnone, howner⟩, hopen⟩

/-- No row is filled and not. -/
theorem nodup_union (owner : Owner) {p q : StopRow → Bool} (h : db.runs.Nodup)
    (hp : ∀ row, p row = true → row.filledOf owner = true) (hq : ∀ row, q row = true → row.unfilledOf owner = true) :
    (db.runs.filter p ++ db.runs.filter q).Nodup := by
  refine List.nodup_append.mpr ⟨h.filter _, h.filter _, ?_⟩
  rintro row hfilled _ hunfilled rfl
  have hissuer := hp row (List.mem_filter.mp hfilled).2
  have hnone := StopRow.unfilledOf_iff.mp (hq row (List.mem_filter.mp hunfilled).2)
  simp [StopRow.filledOf, hnone.1] at hissuer

theorem Sound.nodup_rowsUnder (h : db.Sound) : (db.rowsUnder owner scope).Nodup := by
  have hrows : db.runs.Nodup := h.nodup.of_map
  cases scope with
  | run run =>
      refine List.nodup_flatMap.mpr ⟨fun id _ => hrows.filter _, (h.nodup_tree run).imp fun {a b} hne => ?_⟩
      intro row ha hb
      have hida := of_decide_eq_true (Bool.and_eq_true_iff.mp (Bool.and_eq_true_iff.mp (List.mem_filter.mp ha).2).1).1
      have hidb := of_decide_eq_true (Bool.and_eq_true_iff.mp (Bool.and_eq_true_iff.mp (List.mem_filter.mp hb).2).1).1
      exact hne (hida.symm.trans hidb)
  | thread thread =>
      refine nodup_union owner hrows (fun row hp => ?_) fun row hq => ?_
      · exact (Bool.and_eq_true_iff.mp (Bool.and_eq_true_iff.mp hp).1).1
      · exact (Bool.and_eq_true_iff.mp (Bool.and_eq_true_iff.mp hq).1).1
  | owner =>
      refine nodup_union owner hrows (fun row hp => ?_) fun row hq => ?_
      · exact (Bool.and_eq_true_iff.mp hp).1
      · exact (Bool.and_eq_true_iff.mp hq).1

/-! ### The runs of the rows -/

theorem Sound.hasEnded_withEvents (h : db.Sound) (row : StopRow) :
    hasEnded (db.withEvents row).events = !db.isOpen row := by
  rw [isOpen, Bool.not_not, Bool.eq_iff_iff, hasEnded, List.any_eq_true, List.any_eq_true]
  constructor
  · rintro ⟨event, hmem, hterminal⟩
    obtain ⟨stored, hstored, rfl⟩ := List.mem_map.mp hmem
    obtain ⟨hstored, hrun⟩ := List.mem_filter.mp ((List.mem_insertionSort _).mp hstored)
    exact ⟨stored, hstored, by rw [Bool.and_eq_true, h.flagged stored hstored]; exact ⟨hrun, hterminal⟩⟩
  · rintro ⟨stored, hstored, hboth⟩
    rw [Bool.and_eq_true, h.flagged stored hstored] at hboth
    exact ⟨stored.body, List.mem_map_of_mem
      ((List.mem_insertionSort _).mpr (List.mem_filter.mpr ⟨hstored, hboth.1⟩)), hboth.2⟩

theorem Sound.run_row (h : db.Sound) (hrow : row ∈ db.runs) : db.run row.id = some (db.withEvents row) := by
  have hfound : (db.runs.find? fun other => other.id = row.id).isSome :=
    List.find?_isSome.mpr ⟨row, hrow, decide_eq_true rfl⟩
  obtain ⟨other, hother⟩ := Option.isSome_iff_exists.mp hfound
  have hid := List.find?_some hother
  rw [decide_eq_true_eq] at hid
  rw [run, hother, Option.map_some, h.unique (List.mem_of_find?_eq_some hother) hrow hid]

theorem run_cases {id : RunId} {run : StoredRun} (hrun : db.run id = some run) :
    ∃ row ∈ db.runs, row.id = id ∧ db.withEvents row = run := by
  obtain ⟨row, hrow, hevents⟩ := Option.map_eq_some_iff.mp hrun
  have hid := List.find?_some hrow
  rw [decide_eq_true_eq] at hid
  exact ⟨row, List.mem_of_find?_eq_some hrow, hid, hevents⟩

theorem openRunsUnder_putStop : (db.putStop owner scope).openRunsUnder = db.openRunsUnder := by
  rw [putStop]
  split <;> rfl

/-- An open run of the principal whose row is not filled has the empty session, and no stop covers it. -/
def EmptySession (db : StopTables) (owner : Owner) : Prop :=
  ∃ row ∈ db.runs, row.unfilledOf owner = true ∧ row.spec.metadataGet sessionId = some "" ∧ db.isOpen row = true ∧
    ¬ db.Covered row

/-- What the list has is what the stop reaches, the empty session apart. -/
theorem Sound.listed_of_reached (h : db.Sound) (hrow : row ∈ db.runs) (hmakes : Makes db.above row top)
    (hprincipal : principal owner = top.principal) (hscope : top.inScope scope) :
    row.spec.owner.is owner = true ∧ db.listed owner row scope := by
  obtain ⟨htop, howner, hthread⟩ := h.makes_above hrow hmakes
  rw [(h.read top htop).principal_eq] at hprincipal
  refine ⟨Owner.is_iff.mpr (howner ▸ hprincipal).symm, ?_⟩
  cases scope with
  | run run => exact ⟨top, hmakes, hscope.symm, Owner.is_iff.mpr hprincipal.symm⟩
  | thread thread =>
      have hscope : threadOf row.spec = some thread := by
        rw [← hthread, ← (h.read top htop).thread_eq]
        exact hscope
      obtain ⟨number, heq | heq⟩ := h.read row hrow
      · exact .inl (by rw [heq]; exact ⟨rfl, hscope⟩)
      · exact .inr (by rw [heq]; exact ⟨rfl, (Option.filter_eq_some_iff.mp hscope).1⟩)
  | owner => trivial

theorem Sound.reached_of_listed (h : db.Sound) (hrow : row ∈ db.runs) (howner : row.spec.owner.is owner = true)
    (hlisted : db.listed owner row scope) :
    (∃ top, Makes db.above row top ∧ principal owner = top.principal ∧ top.inScope scope) ∨
      scope = .thread "" ∧ row.unfilledOf owner = true ∧ row.spec.metadataGet sessionId = some "" := by
  have hprincipal : principal owner = row.principal := (h.read row hrow).principal_eq ▸ (Owner.is_iff.mp howner).symm
  cases scope with
  | run run =>
      obtain ⟨top, hmakes, hid, htop⟩ := hlisted
      have hread := h.read top (h.makes_above hrow hmakes).1
      exact .inl ⟨top, hmakes, hread.principal_eq ▸ (Owner.is_iff.mp htop).symm, hid.symm⟩
  | thread thread =>
      have hthread : threadOf row.spec = some thread → ∃ top, Makes db.above row top ∧ principal owner = top.principal ∧
          top.inScope (.thread thread) :=
            fun hthread => ⟨row, .refl, hprincipal, (h.read row hrow).thread_eq.trans hthread⟩
      rcases hlisted with ⟨hissuer, hcolumn⟩ | ⟨hnone, hsession⟩
      · obtain ⟨number, heq | heq⟩ := h.read row hrow
        · rw [heq] at hcolumn
          exact .inl (hthread hcolumn)
        · rw [heq] at hissuer
          cases hissuer
      · by_cases hempty : thread = ""
        · subst hempty
          exact .inr ⟨rfl, StopRow.unfilledOf_iff.mpr ⟨hnone, howner⟩, hsession⟩
        · refine .inl (hthread ?_)
          rw [threadOf, hsession]
          simp [hempty]
  | owner => exact .inl ⟨row, .refl, hprincipal, trivial⟩

theorem Sound.workList_iff (h : db.Sound) (owner : Owner) (scope : StopScope) :
    WorkList owner db.run db.stopped (db.putStop owner scope).stopped
      ((db.putStop owner scope).openRunsUnder owner scope) ↔
      ¬ (scope = .thread "" ∧ db.EmptySession owner) := by
  have hafter : (db.putStop owner scope).Sound := h.putStop
  have hstopped : ∀ row ∈ db.runs,
      ((db.putStop owner scope).stopped row.id = true ↔ (db.putStop owner scope).Covered row) :=
    fun row hrow => hafter.stopped_row (by rwa [putStop_runs])
  have hid : ∀ row ∈ db.runs, (db.withEvents row).spec.runId = row.id := fun row hrow => (h.read row hrow).id_eq.symm
  rw [openRunsUnder_putStop]
  constructor
  · -- The stop of the empty thread names no run, yet the list has the run.
    rintro hlist ⟨rfl, row, hrow, hunfilled, hsession, hopen, hcovered⟩
    obtain ⟨hnone, howner⟩ := StopRow.unfilledOf_iff.mp hunfilled
    have hmem : db.withEvents row ∈ db.openRunsUnder owner (.thread "") :=
      List.mem_map_of_mem (h.mem_rowsUnder.mpr ⟨hrow, howner, hopen, .inr ⟨hnone, hsession⟩⟩)
    have hnow := hlist.stopped _ hmem
    rw [hid row hrow, hstopped row hrow] at hnow
    rcases (h.covered_putStop hrow).mp hnow with hbefore | ⟨top, hmakes, -, hscope⟩
    · exact hcovered hbefore
    · have hscope : top.thread = some "" := hscope
      rw [(h.read top (h.makes_above hrow hmakes).1).thread_eq, threadOf, Option.filter_eq_some_iff] at hscope
      simp at hscope
  · intro hnot
    refine ⟨fun id run hrun hopen hbefore hnow => ?_, fun run hmem => ?_, fun run hmem => ?_, fun run hmem => ?_, ?_⟩
    · obtain ⟨row, hrow, rfl, rfl⟩ := run_cases hrun
      rw [h.hasEnded_withEvents, Bool.not_eq_false'] at hopen
      rcases (h.covered_putStop hrow).mp ((hstopped row hrow).mp hnow) with hold | ⟨top, hmakes, hprincipal, hscope⟩
      · rw [(h.stopped_row hrow).mpr hold] at hbefore
        cases hbefore
      · obtain ⟨howner, hlisted⟩ := h.listed_of_reached hrow hmakes hprincipal hscope
        exact List.mem_map_of_mem (h.mem_rowsUnder.mpr ⟨hrow, howner, hopen, hlisted⟩)
    · obtain ⟨row, hlist, rfl⟩ := List.mem_map.mp hmem
      obtain ⟨hrow, -, hopen, -⟩ := h.mem_rowsUnder.mp hlist
      rw [hid row hrow, h.hasEnded_withEvents, hopen]
      exact ⟨h.run_row hrow, rfl⟩
    · obtain ⟨row, hlist, rfl⟩ := List.mem_map.mp hmem
      obtain ⟨hrow, howner, hopen, hlisted⟩ := h.mem_rowsUnder.mp hlist
      rw [hid row hrow, hstopped row hrow, h.covered_putStop hrow]
      rcases h.reached_of_listed hrow howner hlisted with ⟨top, hmakes, hprincipal, hscope⟩ | ⟨rfl, hunfilled, hsession⟩
      · exact .inr ⟨top, hmakes, hprincipal, hscope⟩
      · left
        by_contra hcovered
        exact hnot ⟨rfl, row, hrow, hunfilled, hsession, hopen, hcovered⟩
    · obtain ⟨row, hlist, rfl⟩ := List.mem_map.mp hmem
      exact (h.mem_rowsUnder.mp hlist).2.1
    · rw [openRunsUnder, List.map_map]
      refine h.nodup_rowsUnder.map_on fun row hlist row' hlist' hsame => ?_
      obtain ⟨hrow, -⟩ := h.mem_rowsUnder.mp hlist
      obtain ⟨hrow', -⟩ := h.mem_rowsUnder.mp hlist'
      exact h.unique hrow hrow' ((hid row hrow).symm.trans (hsame.trans (hid row' hrow')))

/-- A run an older server stored, with an empty session. -/
def emptySession : StopTables :=
  empty.putRun true ⟨{ RunSpec.plain 1 ⟨8, 4⟩ with metadata := [(sessionId, "")] }, []⟩

theorem sound_emptySession : emptySession.Sound := sound_empty.putRun true nofun

def plainOwner : Owner := (RunSpec.plain 1 ⟨8, 4⟩).owner

/-- The empty thread's stop lists the run, and does not cover it. -/
theorem empty_thread_lists : emptySession.Sound ∧
    ¬ WorkList plainOwner emptySession.run emptySession.stopped (emptySession.putStop plainOwner (.thread "")).stopped
      ((emptySession.putStop plainOwner (.thread "")).openRunsUnder plainOwner (.thread "")) := by
  refine ⟨sound_emptySession, fun hlist => ?_⟩
  have hlisted : ⟨{ RunSpec.plain 1 ⟨8, 4⟩ with metadata := [(sessionId, "")] }, []⟩ ∈
      (emptySession.putStop plainOwner (.thread "")).openRunsUnder plainOwner (.thread "") := by decide +kernel
  have hcovered : (emptySession.putStop plainOwner (.thread "")).stopped ⟨1⟩ = false := by decide +kernel
  have hstopped := hlist.stopped _ hlisted
  exact absurd (hstopped.symm.trans hcovered) nofun

/-- What a stop has to end is what it covers, in memory at every store, and in Postgres unless the scope is the empty
thread and an older server stored an open run with an empty session: the list reads the session as it is, the walk as
no thread. -/
theorem stop_work_list (owner : Owner) (scope : StopScope) :
    (∀ s : StopStore, s.Ordered → s.Numbered → s.Inherited →
      WorkList owner s.logs.runs s.stopped (s.apply (.stop owner scope)).stopped
        ((s.apply (.stop owner scope)).stops.openRunsUnder s.logs.runs owner scope)) ∧
    ∀ db : StopTables, db.Sound →
      (WorkList owner db.run db.stopped (db.putStop owner scope).stopped
        ((db.putStop owner scope).openRunsUnder owner scope) ↔
        ¬ (scope = .thread "" ∧ db.EmptySession owner)) :=
  ⟨fun _ hordered hnumbered hinherited => StopStore.workList hordered hnumbered hinherited owner scope,
    fun _ h => h.workList_iff owner scope⟩

/-- A parent an older server stored, and its child. -/
def olderParent : StopTables := (empty.putRun true StopStore.stoppedParent).putRun false StopStore.lateChild

theorem sound_olderParent : olderParent.Sound := by
  refine (sound_empty.putRun true fun parent hparent => by cases hparent).putRun false fun parent hparent => ?_
  cases hparent
  exact ⟨_, List.mem_singleton_self _, rfl, rfl, rfl⟩

/-- A stop of the parent lists its child, in memory and in Postgres. -/
theorem stop_work_list_child :
    StopStore.lateChild ∈ ((StopStore.empty.applyAll [.write 0 (.putRun StopStore.stoppedParent),
        .write 1 (.putRun StopStore.lateChild)]).apply (.stop plainOwner (.run ⟨1⟩))).stops.openRunsUnder
      (StopStore.empty.applyAll [.write 0 (.putRun StopStore.stoppedParent),
        .write 1 (.putRun StopStore.lateChild)]).logs.runs
      plainOwner (.run ⟨1⟩) ∧
    StopStore.lateChild ∈ (olderParent.putStop plainOwner (.run ⟨1⟩)).openRunsUnder plainOwner (.run ⟨1⟩) := by
  have hkept : StopStore.empty.Kept
      [.write 0 (.putRun StopStore.stoppedParent), .write 1 (.putRun StopStore.lateChild)] :=
    ⟨nofun, fun _ h => by cases h; exact ⟨StopStore.stoppedParent, rfl, rfl, rfl⟩, trivial⟩
  refine ⟨((stop_work_list plainOwner (.run ⟨1⟩)).1 _ (StopStore.ordered_empty.applyAll hkept)
    (StopStore.numbered_applyAll _)
    (StopStore.inherited_applyAll hkept)).covered ⟨2⟩ _ ?_ rfl ?_ ?_,
    (((stop_work_list plainOwner (.run ⟨1⟩)).2 olderParent sound_olderParent).mpr nofun).covered ⟨2⟩ _ ?_ rfl ?_ ?_⟩
  all_goals decide +kernel

end StopTables
end Gol
