import On9log.TagWriters

/-!
# The tag filters, one access at a time (on9log.c:97-125, 1382-1419, 1590-1747)

Lookups and writers as a state machine: each atomic load, store and
read-modify-write, each access to `node->tag` and each call to the heap is a
step of its own, and any number of tasks take steps in any order. Nodes are
numbered as they are allocated and strings live in numbered blocks; a number is
never given out twice. What a task knows between two steps is its `Pc`. The
writer inside the port lock is kept with the lock.

`settings` is no variable of the program: it remembers which tag and level each
node was ever set to.
-/

namespace On9log

/-- The width of the `unsigned int` that counts readers. -/
structure HazardConfig extends FilterConfig where
  uintBits : ℕ

/-! ### Memory -/

/-- `on9log_tag_filter_node_t`. -/
structure HazardNode where
  next : Option ℕ
  tag : Option ℕ
  level : ℕ
  active : Bool
  readers : ℕ
  deriving DecidableEq

/-- What `calloc` gives. -/
def HazardNode.zero : HazardNode := ⟨none, none, 0, false, 0⟩

structure TagHeap where
  node : ℕ → HazardNode
  nodes : ℕ
  first : Option ℕ
  head : Option ℕ
  activeCount : ℕ
  defaultLevel : ℕ
  block : ℕ → Option (List UInt8)
  blocks : ℕ
  settings : List (ℕ × List UInt8 × ℕ)

namespace TagHeap

variable (h : TagHeap)

def init : TagHeap where
  node _ := .zero
  nodes := 0
  first := none
  head := none
  activeCount := 0
  defaultLevel := levelVerbose
  block _ := none
  blocks := 0
  settings := []

def setNode (i : ℕ) (n : HazardNode) : TagHeap := { h with node := Function.update h.node i n }

def storeActive (i : ℕ) (active : Bool) : TagHeap :=
  h.setNode i { h.node i with active := active }

def storeTag (i : ℕ) (tag : Option ℕ) : TagHeap := h.setNode i { h.node i with tag := tag }

def storeReaders (i : ℕ) (readers : ℕ) : TagHeap :=
  h.setNode i { h.node i with readers := readers }

def strdup (tag : List UInt8) : TagHeap :=
  { h with block := Function.update h.block h.blocks (some tag), blocks := h.blocks + 1 }

def free : Option ℕ → TagHeap
  | none => h
  | some b => { h with block := Function.update h.block b none }

def setTo (i : ℕ) (tag : List UInt8) (level : ℕ) : TagHeap :=
  { h.setNode i { h.node i with level := level } with settings := (i, tag, level) :: h.settings }

def calloc : TagHeap := { h.setNode h.nodes .zero with nodes := h.nodes + 1 }

/-- `SLIST_INSERT_HEAD`. -/
def insertHead (i : ℕ) : TagHeap :=
  { h.setNode i { h.node i with next := h.first } with first := some i }

/-- The string a node's tag points to. -/
def contents (i : ℕ) : Option (List UInt8) := (h.node i).tag.bind h.block

/-- `on9log_tag_matches` on the pointer of a node. -/
def tagMatches (configured : Option ℕ) (tag : Option (List UInt8)) : Bool :=
  match configured, tag with
  | none, none => true
  | some b, some tag => decide (h.block b = some tag)
  | _, _ => false

end TagHeap

/-! ### on9log_filter_level_for_tag -/

/-- The access a lookup does next. From `loadTag` to `subReaders` the node was
seen active by the second check. -/
inductive LookupPc where
  | loadCount
  | loadHead
  | loadDefault
  | loadActive (i : ℕ)
  | addReaders (i : ℕ)
  | recheck (i : ℕ)
  | loadTag (i : ℕ)
  | compare (i : ℕ) (configured : Option ℕ)
  | loadLevel (i : ℕ) (configured : Option ℕ) (same : Bool)
  | subReaders (i : ℕ) (configured : Option ℕ) (same : Bool) (level : ℕ)
  | dropReaders (i : ℕ)
  | loadNext (i : ℕ)
  | done (level : ℕ)
  deriving DecidableEq

def LookupPc.walk : Option ℕ → LookupPc
  | none => .loadDefault
  | some i => .loadActive i

def TagHeap.addReaders (cfg : HazardConfig) (h : TagHeap) (i : ℕ) : TagHeap :=
  h.storeReaders i (((h.node i).readers + 1) % 2 ^ cfg.uintBits)

def TagHeap.subReaders (cfg : HazardConfig) (h : TagHeap) (i : ℕ) : TagHeap :=
  h.storeReaders i (((h.node i).readers + (2 ^ cfg.uintBits - 1)) % 2 ^ cfg.uintBits)

def lookupStep (cfg : HazardConfig) (h : TagHeap) (tag : Option (List UInt8)) :
    LookupPc → TagHeap × LookupPc
  | .loadCount => (h, if h.activeCount = 0 then .loadDefault else .loadHead)
  | .loadHead => (h, .walk h.head)
  | .loadDefault => (h, .done h.defaultLevel)
  | .loadActive i => (h, if (h.node i).active then .addReaders i else .loadNext i)
  | .addReaders i => (h.addReaders cfg i, .recheck i)
  | .recheck i => (h, if (h.node i).active then .loadTag i else .dropReaders i)
  | .loadTag i => (h, .compare i (h.node i).tag)
  | .compare i configured => (h, .loadLevel i configured (h.tagMatches configured tag))
  | .loadLevel i configured same => (h, .subReaders i configured same (h.node i).level)
  | .subReaders i _ same level =>
    (h.subReaders cfg i, if same then .done level else .loadNext i)
  | .dropReaders i => (h.subReaders cfg i, .loadNext i)
  | .loadNext i => (h, .walk (h.node i).next)
  | .done level => (h, .done level)

/-! ### on9log_set_tag_level and on9log_clear_tag_level under the port lock -/

/-- The call a writer runs; a set has its copy of the tag from the allocation on. -/
inductive Job where
  | set (tag : List UInt8) (level : ℕ) (copy : Option ℕ)
  | clear (tag : List UInt8)
  deriving DecidableEq

def Job.tag : Job → List UInt8
  | .set tag _ _ => tag
  | .clear tag => tag

def Job.level : Job → ℕ
  | .set _ level _ => level
  | .clear _ => 0

def Job.copy : Job → Option ℕ
  | .set _ _ copy => copy
  | .clear _ => none

def Job.withCopy (b : ℕ) : Job → Job
  | .set tag level _ => .set tag level (some b)
  | .clear tag => .clear tag

/-- What a writer does once it has released the lock. -/
inductive After where
  | malloc
  | freeCopy (err : Err)
  | ret (err : Err)
  deriving DecidableEq

/-- The access a writer inside the lock does next. -/
inductive WriterPc where
  | scan (node : Option ℕ)
  | scanNext (i : ℕ)
  | loadActive (i : ℕ)
  | storeLevel (i : ℕ) (wasActive : Bool)
  | storeActive (i : ℕ)
  | addCount (i : ℕ)
  | findReuse (node : Option ℕ)
  | findNext (i : ℕ)
  | wait (i : ℕ)
  | freeTag (i : ℕ)
  | storeTag (i : ℕ)
  | reuseLevel (i : ℕ)
  | reuseActive (i : ℕ)
  | addReused (i : ℕ)
  | calloc
  | initTag (i : ℕ)
  | initLevel (i : ℕ)
  | initActive (i : ℕ)
  | initReaders (i : ℕ)
  | insertHead (i : ℕ)
  | addInserted (i : ℕ)
  | storeHead (i : ℕ)
  | exchangeActive (i : ℕ)
  | subCount (i : ℕ)
  | unlock (next : After)
  deriving DecidableEq

/-- A node with the tag was found. -/
def Job.matched (i : ℕ) : Job → WriterPc
  | .set _ _ _ => .loadActive i
  | .clear _ => .exchangeActive i

/-- The scan came to the end of the list. -/
def Job.unmatched (first : Option ℕ) : Job → WriterPc
  | .set _ _ none => .unlock .malloc
  | .set _ _ (some _) => .findReuse first
  | .clear _ => .unlock (.ret .notFound)

/-- The end of the branch for a node with the tag. -/
def Job.updated : Job → After
  | .set _ _ (some _) => .freeCopy .ok
  | .set _ _ none => .ret .ok
  | .clear _ => .ret .ok

def sectionStep (cfg : HazardConfig) (h : TagHeap) (job : Job) (callocOk : Bool) :
    WriterPc → TagHeap × WriterPc
  | .scan none => (h, job.unmatched h.first)
  | .scan (some i) =>
    (h, if h.tagMatches (h.node i).tag (some job.tag) then job.matched i else .scanNext i)
  | .scanNext i => (h, .scan (h.node i).next)
  | .loadActive i => (h, .storeLevel i (h.node i).active)
  | .storeLevel i wasActive =>
    (h.setTo i job.tag job.level, if wasActive then .unlock job.updated else .storeActive i)
  | .storeActive i => (h.storeActive i true, .addCount i)
  | .addCount _ =>
    ({ h with activeCount := addActive cfg.toFilterConfig h.activeCount }, .unlock job.updated)
  | .findReuse none => (h, .calloc)
  | .findReuse (some i) => (h, if (h.node i).active then .findNext i else .wait i)
  | .findNext i => (h, .findReuse (h.node i).next)
  | .wait i => (h, if (h.node i).readers = 0 then .freeTag i else .wait i)
  | .freeTag i => (h.free (h.node i).tag, .storeTag i)
  | .storeTag i => (h.storeTag i job.copy, .reuseLevel i)
  | .reuseLevel i => (h.setTo i job.tag job.level, .reuseActive i)
  | .reuseActive i => (h.storeActive i true, .addReused i)
  | .addReused _ =>
    ({ h with activeCount := addActive cfg.toFilterConfig h.activeCount }, .unlock (.ret .ok))
  | .calloc =>
    if callocOk ∧ h.nodes < cfg.nodeMax then
      (h.calloc, .initTag h.nodes)
    else (h, .unlock (.freeCopy .noMem))
  | .initTag i => (h.storeTag i job.copy, .initLevel i)
  | .initLevel i => (h.setTo i job.tag job.level, .initActive i)
  | .initActive i => (h.storeActive i true, .initReaders i)
  | .initReaders i => (h.storeReaders i 0, .insertHead i)
  | .insertHead i => (h.insertHead i, .addInserted i)
  | .addInserted i =>
    ({ h with activeCount := addActive cfg.toFilterConfig h.activeCount }, .storeHead i)
  | .storeHead _ => ({ h with head := h.first }, .unlock (.ret .ok))
  | .exchangeActive i =>
    (h.storeActive i false,
      if (h.node i).active then .subCount i else .unlock (.ret .ok))
  | .subCount _ =>
    ({ h with activeCount := subActive cfg.toFilterConfig h.activeCount }, .unlock (.ret .ok))
  | .unlock next => (h, .unlock next)

/-! ### Tasks -/

inductive Pc where
  | idle
  | lookup (tag : Option (List UInt8)) (p : LookupPc)
  | storeDefault (level : ℕ)
  | lock (job : Job)
  | inside
  | malloc (job : Job)
  | freeCopy (job : Job) (err : Err)
  | returned (err : Err)
  deriving DecidableEq

def WriterCall.start : WriterCall → Pc
  | .setLevel level => if validLevel level then .storeDefault level else .returned .ok
  | .setTagLevel none _ => .returned .invalidArg
  | .setTagLevel (some tag) level =>
    if validLevel level then .lock (.set tag level none) else .returned .invalidArg
  | .clearTagLevel none => .returned .invalidArg
  | .clearTagLevel (some tag) => .lock (.clear tag)

def After.pc (job : Job) : After → Pc
  | .malloc => .malloc job
  | .freeCopy err => .freeCopy job err
  | .ret err => .returned err

structure HazardState (Tid : Type) where
  heap : TagHeap
  inside : Option (Tid × Job × WriterPc)
  pc : Tid → Pc

variable {Tid : Type} [DecidableEq Tid]

def HazardState.init : HazardState Tid := ⟨.init, none, fun _ => .idle⟩

def HazardState.goto (s : HazardState Tid) (t : Tid) (p : Pc) : HazardState Tid :=
  { s with pc := Function.update s.pc t p }

/-- The call an idle task makes, or whether the heap has room for what a running
one allocates. -/
inductive Choice where
  | lookup (tag : Option (List UInt8))
  | write (c : WriterCall)
  | go (ok : Bool)

/-- What task `t` at `pc` makes of the memory and the lock, and where it is then. -/
def taskStep (cfg : HazardConfig) (t : Tid) (x : Choice) (h : TagHeap)
    (inside : Option (Tid × Job × WriterPc)) (pc : Pc) :
    Option (TagHeap × Option (Tid × Job × WriterPc) × Pc) :=
  match pc, x with
  | .idle, .lookup tag => some (h, inside, .lookup tag .loadCount)
  | .idle, .write c => some (h, inside, c.start)
  | .lookup _ (.done _), .go _ => some (h, inside, .idle)
  | .lookup tag p, .go _ =>
    let r := lookupStep cfg h tag p
    some (r.1, inside, .lookup tag r.2)
  | .storeDefault level, .go _ => some ({ h with defaultLevel := level }, inside, .returned .ok)
  | .lock job, .go _ =>
    match inside with
    | none => some (h, some (t, job, .scan h.first), .inside)
    | some _ => none
  | .inside, .go ok =>
    match inside with
    | some (u, job, .unlock next) => if u = t then some (h, none, next.pc job) else none
    | some (u, job, q) =>
      if u = t then
        let r := sectionStep cfg h job ok q
        some (r.1, some (t, job, r.2), .inside)
      else none
    | none => none
  | .malloc job, .go ok =>
    if ok then some (h.strdup job.tag, inside, .lock (job.withCopy h.blocks))
    else some (h, inside, .returned .noMem)
  | .freeCopy job err, .go _ => some (h.free job.copy, inside, .returned err)
  | .returned _, .go _ => some (h, inside, .idle)
  | _, _ => none

def HazardState.step (cfg : HazardConfig) (t : Tid) (x : Choice) (s : HazardState Tid) :
    Option (HazardState Tid) :=
  (taskStep cfg t x s.heap s.inside (s.pc t)).map fun r =>
    ⟨r.1, r.2.1, Function.update s.pc t r.2.2⟩

def HazardState.Next (cfg : HazardConfig) (s s' : HazardState Tid) : Prop :=
  ∃ t x, s.step cfg t x = some s'

end On9log
