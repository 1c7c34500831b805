import BlockDir.Config
import BlockDir.Link.Transfer

/-!
# Connection pools

A pool opens links to one store as they are needed, up to a limit, and keeps those given back for
the next caller, first in, first out. A link that was spoiled is closed instead. Once the pool is
closed, no link is handed out, and those still out are closed when they come back.
-/

namespace BlockDir

/-- A bounded set of links to one store. -/
structure Pool where
  config : PoolConfig
  store : Nat
  /-- The links that wait for a caller, the one given back first in front. -/
  idle : List Link
  /-- How many links there are, waiting or handed out. -/
  live : Nat
  closed : Bool

/-- An action on a pool and the wire. -/
abbrev PoolM := EStateM Error (Pool × Wire)

namespace Pool

/-- A pool without links. -/
def new (config : PoolConfig) (store : Nat) : Except Error Pool :=
  match config.validate with
  | .ok () => .ok ⟨config, store, [], 0, false⟩
  | .error e => .error e

/-- What becomes of a caller who waits for a link, once the wait ends: a link that came back is
theirs; otherwise the pool was closed meanwhile, or the time is up. -/
def endWait : PoolM Link := fun (pool, wire) =>
  match pool.idle with
  | link :: idle => .ok link ({ pool with idle }, wire)
  | [] =>
    if pool.closed then .error (.closed .poolDuringCheckout) (pool, wire)
    else
      .error (.link (.checkoutTimeout pool.config.checkoutTimeout pool.config.maxConnections))
        (pool, wire)

/-- Whether a checkout would have to wait: all links that there may be are handed out. -/
def isExhausted (pool : Pool) : Bool :=
  !pool.closed && pool.idle.isEmpty && pool.config.maxConnections ≤ pool.live

/-- Takes a link out: one that waits, or a new one while the limit allows it. When all links are
handed out and none comes back, the wait times out. -/
def checkout : PoolM Link := fun (pool, wire) =>
  if pool.closed then .error (.closed .pool) (pool, wire)
  else if pool.idle.isEmpty && pool.live < pool.config.maxConnections then
    match Wire.connect pool.store wire with
    | .ok link wire => .ok link ({ pool with live := pool.live + 1 }, wire)
    | .error e wire => .error e (pool, wire)
  else endWait (pool, wire)

/-- Takes a link back. It is closed if it was spoiled, if the pool is closed, or if there is no room
for it. -/
def giveBack (pool : Pool) (link : Link) (spoiled : Bool) (wire : Wire) : Pool × Wire :=
  if !spoiled && !pool.closed && pool.idle.length < pool.config.maxConnections then
    ({ pool with idle := pool.idle ++ [link] }, wire)
  else ({ pool with live := pool.live - 1 }, link.abandon wire)

/-- Runs an action on a link of the pool. The link is spoiled if the action fails in transport, or
if its result says so. -/
def lend {α : Type} (spoils : α → Bool) (act : Link → WireM α) : PoolM α := fun state =>
  match checkout state with
  | .error e state => .error e state
  | .ok link (pool, wire) =>
    match act link wire with
    | .ok a wire => .ok a (pool.giveBack link (spoils a) wire)
    | .error e wire => .error e (pool.giveBack link e.isTransport wire)

/-- The links that closing the pool closes: those that wait in it, unless it is closed already. -/
def doomed (pool : Pool) : List Link := if pool.closed then [] else pool.idle

/-- The pool after it was closed. -/
def shut (pool : Pool) : Pool :=
  if pool.closed then pool
  else { pool with closed := true, idle := [], live := pool.live - pool.idle.length }

end Pool

end BlockDir
