import MemoryReplay.Config.Basic

/-!
# Reading a configuration

- `Config.ofText`: the configuration that a text describes, if it can be run.
- `Config.ofBytes`: the same for the bytes of a file.
-/

namespace MemoryReplay.Config

open JsonText

/-- A member whose value is put into a record. -/
def member {S α : Type} (name : String) (value : Reader α) (put : α → S → S) : Reader.Member S :=
  ⟨name, fun s => return put (← value) s⟩

/-- The members of the general part. -/
def generalMembers : List (Reader.Member General) :=
  [member "trace_path" Reader.text fun path g => { g with tracePath := path },
   member "output_dir" Reader.text fun path g => { g with outputDir := path },
   member "debug" (Reader.choice Verbosity.ofName?) fun v g => { g with verbosity := v }]

/-- The members of the mapping. -/
def mappingMembers : List (Reader.Member Mapping) :=
  [member "preset" (Reader.optional (Reader.choice Preset.ofName?)) fun preset m =>
    { m with preset },
   member "bit_map" (Reader.optional (Reader.list Reader.word)) fun bits m =>
    { m with table := bits.map (List.map UInt64.toNat) }]

/-- The strategy of a name. -/
def strategyOfName? (name : String) : Option Strategy :=
  Strategy.all.find? (·.configName == name)

/-- The only member of the part on distribution. -/
def distributionMembers : List (Reader.Member Strategy) :=
  [member "strategy" (Reader.choice strategyOfName?) fun strategy _ => strategy]

/-- The latency model of a name; the one with open rows has two. -/
def modelOfName? : String → Option MemoryModel
  | "Fixed" => some .fixed
  | "RowBuffer" | "DRAM" => some .rowBuffer
  | _ => none

/-- A change to the fields of an address. -/
def inFields (change : AddressFields → AddressFields) (c : MemoryConfig) : MemoryConfig :=
  { c with fields := change c.fields }

/-- A change to the timing of the rows. -/
def inRows (change : RowTiming → RowTiming) (c : MemoryConfig) : MemoryConfig :=
  { c with rows := change c.rows }

/-- A change to the constant latencies. -/
def inFixed (change : FixedLatency → FixedLatency) (c : MemoryConfig) : MemoryConfig :=
  { c with fixed := change c.fixed }

/-- A change to the bus. -/
def inBus (change : Bus → Bus) (c : MemoryConfig) : MemoryConfig :=
  { c with bus := change c.bus }

/-- The members of the memory. -/
def memoryMembers : List (Reader.Member MemoryConfig) :=
  [member "model" (Reader.choice modelOfName?) fun model c => { c with model },
   member "bus_bits" Reader.word fun n => inBus ({ · with bits := n }),
   member "burst_length" Reader.word fun n => inBus ({ · with burstLength := n }),
   member "tck_ns" Reader.real fun x => inBus ({ · with period := x }),
   member "queue_depth" Reader.word fun n c => { c with queueDepth := n },
   member "read_latency" Reader.word fun n => inFixed ({ · with read := n }),
   member "write_latency" Reader.word fun n => inFixed ({ · with write := n }),
   member "t_cas" Reader.word fun n => inRows ({ · with cas := n }),
   member "t_ras" Reader.word fun n => inRows ({ · with ras := n }),
   member "t_pre" Reader.word fun n => inRows ({ · with pre := n }),
   member "channel_shift" Reader.halfWord fun n => inFields ({ · with channelShift := n }),
   member "bank_shift" Reader.halfWord fun n => inFields ({ · with bankShift := n }),
   member "bank_bits" Reader.halfWord fun n => inFields ({ · with bankBits := n }),
   member "row_shift" Reader.halfWord fun n => inFields ({ · with rowShift := n })]

/-- The parts of a configuration. The workload stands two brackets deep. -/
def parts : List (Reader.Member Config) :=
  [member "general" (Reader.record generalMembers {}) fun general c => { c with general },
   member "mapping" (Reader.record mappingMembers {}) fun mapping c => { c with mapping },
   member "preprocess" (Reader.record distributionMembers .roundRobin) fun strategy c =>
    { c with strategy },
   member "workload" (Workload.read (Reader.nesting - 2)) fun workload c => { c with workload },
   member "memory" (Reader.record memoryMembers {}) fun memory c => { c with memory }]

/-- The configuration that a text describes. -/
def ofText (text : String) : Except ConfigError Config := do
  let config ← ((Reader.record parts {}).run text).mapError .text
  config.validate
  return config

/-- The configuration in a file with the given bytes. -/
def ofBytes (path : String) (bytes : ByteArray) : Except ConfigError Config :=
  match String.fromUTF8? bytes with
  | some text => ofText text
  | none => .error (.device path .invalidText)

end MemoryReplay.Config
