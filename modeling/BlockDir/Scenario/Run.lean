import BlockDir.Link.Trace
import BlockDir.Scenario.Bench

/-!
# Running a scenario

Carries out steps one after another. `perform` says what each step does; `run` adds what passed over
the wire meanwhile.
-/

namespace BlockDir.Scenario

open Bench

/-- A store step. -/
def performStore (number : Nat) : StoreStep → BenchM Answer
  | .put key field value => do
    modify fun bench =>
      { bench with
        wire := bench.wire.setStore number ((bench.wire.store number).put key field value) }
    return .done
  | .get key field => do
    return .maybeData (((← get).wire.store number).get? key field)
  | .remove key field => do
    let store := (← get).wire.store number
    modify fun bench => { bench with wire := bench.wire.setStore number (store.remove key field) }
    return .maybeData (store.get? key field)
  | .count key => do
    return .number (((← get).wire.store number).table key).size
  | .dump key codec => do
    let table := ((← get).wire.store number).table key
    let entries ← table.toList.mapM fun (field, value) => do
      return (field, ← settle (codec.decode value))
    return .table entries

/-- Makes a backend. -/
def makeBackend (name : Name) : BackendPlan → BenchM Answer
  | .single store => do
    addBackend name (← onWire (Backend.openSingle store))
    return .done
  | .pooled config store => do
    addBackend name (← settle (Backend.openPooled config store))
    return .done
  | .sharded config stores => do
    addBackend name (← settle (Backend.openSharded config stores))
    return .done
  | .cluster stores => do
    addBackend name (← onWire (Backend.openCluster stores))
    return .done
  | .truncating inner keep => do
    let handle ← need inner ((← get).handles.find? inner)
    let window := match handle.window with
      | some window => min window keep
      | none => keep
    modify fun bench =>
      { bench with handles := bench.handles.set name ⟨handle.number, some window⟩ }
    return .done

/-- A checkout that gives the link back at once, and what it came to. -/
def visit (act : PoolM Link) : PoolM Answer := fun state =>
  match act state with
  | .ok link (pool, wire) => .ok (.text "got") (pool.giveBack link false wire)
  | .error e state => if e.kind = .closed then .ok (.text "closed") state else .error e state

/-- How long someone waits for a connection, in milliseconds, before a session is dropped or the
backend is closed. -/
def waitLength : Nat := 50

/-- A backend step. -/
def performBackend (name : Name) (step : BackendStep) : BenchM Answer := do
  let handle ← need name ((← get).handles.find? name)
  let backend ← need name ((← get).backends[handle.number]?)
  match step with
  | .info => return .backend backend.kind backend.supportsTransactions
  | .has key field => return .flag (← onClient handle (Client.hasField key field))
  | .get key field => return .maybeData (← onClient handle (Client.getField key field))
  | .set key field value => return .flag (← onClient handle (Client.setField key field value))
  | .delete key fields => return .number (← onClient handle (Client.deleteFields key fields))
  | .fields key => return .names (← onClient handle (Client.listFields key))
  | .fetch key fields interval =>
    return .fetched (← onClient handle (Client.fetch key fields interval))
  | .commit batch interval => do
    onClient handle (Client.commit batch interval)
    return .done
  | .close => do
    onClient handle Client.close
    return .done
  | .slot key =>
    match backend with
    | @Backend.sharded n _ => return .shard (n + 1) (route n key)
    | @Backend.cluster n _ _ => return .number (route n key).val
    | _ => throw (.unknown name)
  | .pool =>
    match backend with
    | .pooled pool => return .pool pool.live pool.idle.length
    | _ => throw (.unknown name)
  | .checkout session => do
    let link ← onPool handle.number Pool.checkout
    setSession session (.pooled handle.number link false)
    return .done
  | .wait session =>
    match backend with
    | .pooled pool => do
      let early ← if pool.isExhausted && waitLength < pool.config.checkoutTimeout then pure none else
        some <$> attempt (onPool handle.number (visit Pool.checkout))
      match session with
      | none => onClient handle Client.close
      | some session =>
        let old ← need session ((← get).sessions.find? session)
        modify fun bench => { bench with sessions := bench.sessions.without session }
        dropSession old
      match early with
      | some (.ok answer) => return answer
      | some (.error failure) => throw failure
      | none => onPool handle.number (visit Pool.endWait)
    | _ => throw (.unknown name)

/-- A session step. -/
def performSession (name : Name) (step : SessionStep) : BenchM Answer := do
  let session ← need name ((← get).sessions.find? name)
  let link := match session with
    | .own link => link
    | .pooled _ link _ => link
  match step with
  | .execute command => return .reply (← onWire (link.execute command))
  | .send mode commands => return .replies (← onWire (link.send mode commands))
  | .close => do
    let link ← onWire link.close
    let session := match session with
      | .own _ => Session.own link
      | .pooled number _ spoiled => .pooled number link spoiled
    modify fun bench => { bench with sessions := bench.sessions.set name session }
    return .done
  | .discard =>
    match session with
    | .own _ => throw (.unknown name)
    | .pooled number link _ => do
      modify fun bench =>
        { bench with sessions := bench.sessions.set name (.pooled number link true) }
      return .done
  | .drop => do
    modify fun bench => { bench with sessions := bench.sessions.without name }
    dropSession session
    return .done

/-- A volume step. -/
def performVolume (name : Name) (step : VolumeStep) : BenchM Answer := do
  let (volume, handle) ← need name ((← get).volumes.find? name)
  match step with
  | .has name => return .flag (← onClient handle (volume.contains name))
  | .length name => return .number (← onClient handle (volume.length name))
  | .lengthIfAny name => return .maybeNumber (← onClient handle (volume.length? name))
  | .list => return .texts (← onClient handle volume.names)
  | .delete name => return .flag (← onClient handle (volume.delete name))
  | .erase name length => do
    onClient handle (volume.erase name length)
    return .done
  | .rename source dest stored length => do
    onClient handle (volume.rename source dest stored length)
    return .done
  | .save name blocks length => do
    onClient handle (volume.save name blocks length)
    return .done
  | .load name length file => do
    let loaded ← onClient handle (volume.load name length)
    match file with
    | some file => modify fun bench => { bench with loaded := bench.loaded.set file loaded }
    | none => pure ()
    return .loaded loaded
  | .loadStored name length =>
    return .dataList (← onClient handle (volume.loadStored name length))
  | .count name length => return .number (← settle (volume.storedCount name length))
  | .indices name => return .numbers (indicesOf name (← onClient handle volume.storedKeys))
  | .blocks => return .grouped (groupByName (← onClient handle volume.storedKeys))

/-- The directory of a name, with its number. -/
def needDirectory (name : Name) : BenchM (Nat × Opened) := do
  let number ← need name ((← get).directories.find? name)
  return (number, ← need name ((← get).opened[number]?))

/-- A directory step. -/
def performDirectory (name : Name) (step : DirectoryStep) : BenchM Answer := do
  let (number, opened) ← needDirectory name
  let d := opened.directory
  match step with
  | .list => return .texts (← onDesk number (Desk.onClient (·.list)))
  | .has file => return .flag (← onDesk number (Desk.onClient (·.fileExists file)))
  | .length file => return .number (← onDesk number (Desk.onClient (·.fileLength file)))
  | .delete file => do
    onDesk number (Desk.onClient (·.deleteFile file))
    return .done
  | .rename source dest => do
    onDesk number (Desk.onClient (·.renameFile source dest))
    return .done
  | .sync names => do
    settle (d.sync names)
    return .done
  | .ram => return .number d.buffered
  | .pending => return .texts d.pendingOutputs
  | .isClosed => return .flag d.closed
  | .kind => do
    let backend ← need name ((← get).backends[opened.handle.number]?)
    return .text backend.kind.name
  | .config => return .config d.config
  | .close => do
    onDesk number Desk.close
    return .done
  | .clone copy => do
    modify fun bench => { bench with directories := bench.directories.set copy number }
    return .done
  | .drop => do
    modify fun bench => { bench with directories := bench.directories.without name }
    return .done
  | .create file output => do
    setOutput output (← onDesk number (Desk.createOutput file)) number
    return .done
  | .input file reader => do
    setReader reader (← onDesk number (Desk.onClient (·.openInput file)))
    return .done
  | .write file data => do
    let output ← onDesk number (Desk.createOutput file)
    let output ← onDesk number (Desk.write output data)
    onDesk number (Desk.closeOutput output)
    return .done
  | .read file => do
    let reader ← onDesk number (Desk.onClient (·.openInput file))
    match Reader.readToEnd reader with
    | .ok data _ => return .data data
    | .error e _ => throw (.io e)
  | .lock file lock => do
    settle (d.ensureOpen "obtain_lock")
    setLock lock (← onLocks opened.manager (LockManager.acquire file)) opened.manager
    return .done
  | .isHeld file => do
    let manager ← need name ((← get).managers[opened.manager]?)
    return .flag (manager.isHeld (← get).files file)
  | .check => return .report (← onDesk number (Desk.onClient (·.check)))

/-- An output step. -/
def performOutput (name : Name) (step : OutputStep) : BenchM Answer := do
  let (output, number) ← need name ((← get).outputs.find? name)
  let append (data : Bytes) : BenchM Output := do
    let output ← onDesk number (Desk.write output data)
    modify fun bench => { bench with outputs := bench.outputs.set name (output, number) }
    return output
  match step with
  | .write datum => do
    let output ← append (← settle datum.encode)
    return .number output.position
  | .writeSome data => do
    let _ ← append data
    return .number data.length
  | .flush => return .number output.position
  | .checksum => return .number (← settle output.checksumValue).toNat
  | .info => return .output output.name output.position
  | .close => do
    modify fun bench => { bench with outputs := bench.outputs.without name }
    onDesk number (Desk.closeOutput output)
    return .done
  | .drop => do
    modify fun bench => { bench with outputs := bench.outputs.without name }
    dropOutput output number
    return .done

/-- A read cursor step. -/
def performReader (name : Name) (step : ReaderStep) : BenchM Answer := do
  let reader ← need name ((← get).readers.find? name)
  match step with
  | .read shape => return .datum (← onReader name shape.read)
  | .seek target => do
    onReader name (Reader.seek target)
    return .number target
  | .seekFrom origin distance => return .number (← onStream name (Reader.seekFrom origin distance))
  | .readSome count => return .someData (← onStream name (Reader.readSome count))
  | .readToEnd => return .data (← onStream name Reader.readToEnd)
  | .slice copy description offset length => do
    setReader copy (← settle (reader.slice description offset length))
    return .done
  | .clone copy => do
    setReader copy reader
    return .done
  | .close => do
    setReader name reader.close
    return .done
  | .info => return .reader reader

/-- A lock step. -/
def performLock (name : Name) (step : LockStep) : BenchM Answer := do
  let (lock, number) ← need name ((← get).locks.find? name)
  let manager ← need name ((← get).managers[number]?)
  match step with
  | .validate => do
    settle (lock.validate (← get).files manager)
    return .done
  | .release => do
    modify fun bench => { bench with locks := bench.locks.set name (lock.given, number) }
    onLocks number lock.release
    return .done
  | .drop => do
    modify fun bench => { bench with locks := bench.locks.without name }
    dropLock lock number
    return .done
  | .info => return .lock lock.name lock.released ((← get).files.display lock.path)
  | .sameFile => return .flag (← settleIo (lock.leadsToSameFile (← get).files))

/-- A file step. -/
def performFile (path : Path) (step : FileStep) : BenchM Answer := do
  let change (act : FileM Unit) : BenchM Answer := do
    onFiles act
    return .done
  match step with
  | .makeDirectory => change (FileSystem.makeDirectories path)
  | .write data => change (FileSystem.writeFile path data)
  | .append data => change (FileSystem.appendFile path data)
  | .truncate => change (FileSystem.writeFile path [])
  | .remove => change (FileSystem.removeFile path)
  | .replace => change (FileSystem.replaceFile path)
  | .size => return .maybeNumber ((← get).files.size? path)

/-- Where a configuration wants its lock files: below the root if it says so. An empty path leads
nowhere. -/
def lockPath (root lockDir : String) : Except IoError Path :=
  match Path.parse lockDir with
  | [] | [""] => .error .notFound
  | first :: rest => .ok (if first = root then rest else first :: rest)

/-- One step. -/
def perform : Step → BenchM Answer
  | .store number step => performStore number step
  | .arm fault => do
    modify fun bench => { bench with wire := bench.wire.arm fault }
    return .done
  | .newBackend name plan => makeBackend name plan
  | .backend name step => performBackend name step
  | .openSession name store => do
    setSession name (.own (← onWire (Wire.connect store)))
    return .done
  | .session name step => performSession name step
  | .newVolume name backend config => do
    let handle ← need backend ((← get).handles.find? backend)
    modify fun bench =>
      { bench with volumes := bench.volumes.set name (Volume.ofConfig config, handle) }
    return .done
  | .volume name step => performVolume name step
  | .block file index => do
    let loaded ← need file ((← get).loaded.find? file)
    return .data (← settle (loaded.block index))
  | .cursor file description reader => do
    let loaded ← need file ((← get).loaded.find? file)
    modify fun bench => { bench with loaded := bench.loaded.without file }
    setReader reader (Reader.new description loaded)
    return .done
  | .openDirectory name backend config => do
    let handle ← need backend ((← get).handles.find? backend)
    let directory ← settle (Directory.new config)
    let path ← settle ((lockPath (← get).files.root config.lockDir).mapError .io)
    let manager ← addManager path
    modify fun bench =>
      { bench with
        opened := bench.opened.push ⟨directory, handle, manager⟩
        directories := bench.directories.set name bench.opened.size }
    return .done
  | .directory name step => performDirectory name step
  | .output name step => performOutput name step
  | .reader name step => performReader name step
  | .newManager name path => do
    let number ← addManager path
    modify fun bench => { bench with managerNames := bench.managerNames.set name number }
    let manager ← need name ((← get).managers[number]?)
    return .text ((← get).files.display manager.directory)
  | .acquire manager name lock => do
    let number ← need manager ((← get).managerNames.find? manager)
    setLock lock (← onLocks number (LockManager.acquire name)) number
    return .done
  | .isHeld manager name => do
    let number ← need manager ((← get).managerNames.find? manager)
    let manager ← need manager ((← get).managers[number]?)
    return .flag (manager.isHeld (← get).files name)
  | .lock name step => performLock name step
  | .file path step => performFile path step

/-- What one step came to, with the calls that were made meanwhile. -/
structure Outcome where
  result : Except Failure Answer
  trace : List String

/-- Carries out one step. -/
def runStep (step : Step) (bench : Bench) : Outcome × Bench :=
  let start := { bench with wire := { bench.wire with record := [] } }
  match perform step start with
  | .ok answer bench => (⟨.ok answer, bench.wire.record.reverse.map Event.line⟩, bench)
  | .error failure bench => (⟨.error failure, bench.wire.record.reverse.map Event.line⟩, bench)

/-- Carries out steps in turn, on a bench whose files lie below `root`. -/
def run (root : String) (steps : List Step) : List Outcome :=
  let (outcomes, _) := steps.foldl
    (fun (outcomes, bench) step =>
      let (outcome, bench) := runStep step bench
      (outcome :: outcomes, bench))
    ([], Bench.new root)
  outcomes.reverse

end BlockDir.Scenario
