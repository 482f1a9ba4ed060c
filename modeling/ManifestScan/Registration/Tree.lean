import ManifestScan.Outline.Parser
import ManifestScan.Outline.Query
import ManifestScan.Plugin
import ManifestScan.Registration

namespace ManifestScan

namespace Registration

/-- A call of the outline as a registration, if it is closed. -/
def ofCall (source : Bytes) (call : Call) : Except Failure Registration :=
  if call.closed then .ok ⟨call.callee, call.extent.start, call.extent.of source⟩
  else .error (.unclosedRegistrationAt call.callee call.span.start.line)

def ofFunction (convention : Convention) (source : Bytes) (faults : List Fault)
    (function : Definition) : Except Failure (List Registration) :=
  match (Call.matchesIn PluginKind.callees function.calls).mapM (ofCall source) with
  | .error failure => .error failure
  | .ok found =>
    match faults with
    | fault :: _ => .error (.brokenSource fault)
    | [] => convention.nonempty found

/-- Takes in the calls of a function one by one. A call that is not closed ends the search at once;
a fault of the outline ends it only behind the last call. -/
def collect (convention : Convention) (source : Bytes) (faults : List Fault)
    (located : LocatedCalls) : List Call → LocatedCalls
  | [] =>
    match faults with
    | fault :: _ => located.clear.fail (.brokenSource fault)
    | [] => located.finish convention
  | call :: others =>
    if call.closed then
      collect convention source faults
        (located.push ⟨call.callee, call.extent.start, call.extent.of source⟩) others
    else located.clear.fail (.unclosedRegistrationAt call.callee call.span.start.line)

end Registration

/-- The registrations of a source by its outline; a source with faults has none. -/
def Convention.searchTree (convention : Convention) (source : Bytes) :
    Except Failure (List Registration) :=
  let script := Script.ofSource source
  match script.lexicalFaults, script.outline.find? .function convention.function with
  | fault :: _, _ => .error (.brokenSource fault)
  | [], some function =>
    Registration.ofFunction convention source script.outlineFaults function
  | [], none =>
    match script.outlineFaults with
    | fault :: _ => .error (.brokenSource fault)
    | [] => .error (.missingFunction convention.function)

/-- What the search leaves as it goes through the calls; `searchTree` gives its outcome. -/
def Convention.locateTree (convention : Convention) (source : Bytes) : LocatedCalls :=
  let script := Script.ofSource source
  match script.lexicalFaults, script.outline.find? .function convention.function with
  | fault :: _, _ => LocatedCalls.empty.fail (.brokenSource fault)
  | [], some function =>
    Registration.collect convention source script.outlineFaults .empty
      (Call.matchesIn PluginKind.callees function.calls)
  | [], none =>
    match script.outlineFaults with
    | fault :: _ => LocatedCalls.empty.fail (.brokenSource fault)
    | [] => LocatedCalls.empty.fail (.missingFunction convention.function)

end ManifestScan
