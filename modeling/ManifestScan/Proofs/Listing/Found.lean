import ManifestScan.Registration.Textual
import ManifestScan.Registration.Tree

namespace ManifestScan

namespace Registration

variable {source : Bytes} {found : List Registration}

/-- A call as a registration, whether it is closed or not. -/
def spanned (source : Bytes) (call : Call) : Registration :=
  ⟨call.callee, call.extent.start, call.extent.of source⟩

theorem of_mapM {calls : List Call} (h : calls.mapM (ofCall source) = .ok found) :
    found = calls.map (spanned source) ∧ ∀ call ∈ calls, call.closed = true := by
  induction calls generalizing found with
  | nil =>
    cases h
    exact ⟨rfl, nofun⟩
  | cons call calls ih =>
    rw [List.mapM_cons, ofCall] at h
    split at h
    · rename_i hc
      cases ho : calls.mapM (ofCall source) with
      | error failure =>
        rw [ho] at h
        cases h
      | ok others =>
        rw [ho] at h
        cases h
        obtain ⟨rfl, hclosed⟩ := ih ho
        exact ⟨rfl, List.forall_mem_cons.2 ⟨hc, hclosed⟩⟩
    · cases h

/-- What is carved at a place: nothing from the end of the list on, nothing where no constructor is
called or another call is going on, or the call that stands there. -/
theorem carve_cases {body : Bytes} {base stop resume : Nat} {place : Place} {others : List Place}
    (h : carve body base stop resume (place :: others) = .ok found) :
    found = [] ∨ carve body base stop resume others = .ok found ∨
      ∃ callee paren close later, resume ≤ place.offset ∧
        constructorAt? place = some (callee, paren) ∧ matching? body paren = some close ∧
        carve body base stop (close + 1) others = .ok later ∧
        found = ⟨callee, base + place.offset, slice body place.offset (close + 1)⟩ :: later := by
  rw [carve] at h
  split at h
  · exact .inl (Except.ok.inj h).symm
  split at h
  · exact .inr (.inl h)
  split at h
  · exact .inr (.inl h)
  rename_i hresume _ callee paren hc
  split at h
  · cases h
  rename_i close hm
  obtain ⟨hm, -⟩ := Option.filter_eq_some_iff.1 hm
  cases hr : carve body base stop (close + 1) others with
  | error failure =>
    rw [hr] at h
    cases h
  | ok later =>
    rw [hr] at h
    cases h
    exact .inr (.inr ⟨callee, paren, close, later, Nat.le_of_not_lt hresume, hc, hm, hr, rfl⟩)

/-- A registration that is carved stands where a constructor is called. -/
theorem mem_of_carve {body : Bytes} {base stop resume : Nat} {places : List Place}
    (h : carve body base stop resume places = .ok found) :
    ∀ registration ∈ found, ∃ place ∈ places, ∃ callee paren close,
      constructorAt? place = some (callee, paren) ∧ matching? body paren = some close ∧
        registration = ⟨callee, base + place.offset, slice body place.offset (close + 1)⟩ := by
  induction places generalizing resume found with
  | nil =>
    cases h
    exact nofun
  | cons place others ih =>
    have further {resume : Nat} {found : List Registration}
        (h : carve body base stop resume others = .ok found) :
        ∀ registration ∈ found, ∃ other ∈ place :: others, ∃ callee paren close,
          constructorAt? other = some (callee, paren) ∧ matching? body paren = some close ∧
            registration = ⟨callee, base + other.offset, slice body other.offset (close + 1)⟩ := by
      intro registration hm
      obtain ⟨other, ho, hr⟩ := ih h registration hm
      exact ⟨other, List.mem_cons_of_mem _ ho, hr⟩
    obtain rfl | h | ⟨callee, paren, close, later, -, hc, hm, hlater, rfl⟩ := carve_cases h
    · exact nofun
    · exact further h
    · exact List.forall_mem_cons.2
        ⟨⟨place, List.mem_cons_self, callee, paren, close, hc, hm, rfl⟩, further hlater⟩

end Registration

namespace Convention

variable {convention : Convention} {source : Bytes} {found : List Registration}

theorem nonempty_eq_ok {result : List Registration} (h : convention.nonempty found = .ok result) :
    found = result ∧ result ≠ [] := by
  unfold nonempty at h
  split at h
  · cases h
  · rename_i he
    cases h
    exact ⟨rfl, by simpa using he⟩

/-- A search of the text that succeeds has carved at least one registration from a body. -/
theorem carve_of_searchText (h : convention.searchText source = .ok found) :
    found ≠ [] ∧ ∃ (body : Extent) (stop start : Nat),
      Registration.carve (body.of source) body.start stop 0 (codePlaces (body.of source) start) =
        .ok found := by
  unfold searchText Registration.ofBody at h
  dsimp only at h
  repeat' split at h
  all_goals try cases h
  rename_i carved hcarve
  obtain ⟨rfl, hn⟩ := nonempty_eq_ok h
  exact ⟨hn, _, _, _, hcarve⟩

/-- A search of the outline that succeeds has found calls that are all closed, in a source
without faults. -/
theorem calls_of_searchTree (h : convention.searchTree source = .ok found) :
    found ≠ [] ∧ (tokenize source).faults = [] ∧ (Script.ofSource source).outlineFaults = [] ∧
      ∃ function,
        (Script.ofSource source).outline.find? .function convention.function = some function ∧
        (Call.matchesIn PluginKind.callees function.calls).mapM (Registration.ofCall source) =
          .ok found := by
  unfold searchTree Registration.ofFunction at h
  dsimp only at h
  repeat' split at h
  all_goals try cases h
  rename_i function hlex hfind _ _ hcalls _ hout
  obtain ⟨rfl, hn⟩ := nonempty_eq_ok h
  exact ⟨hn, hlex, hout, function, hfind, hcalls⟩

end Convention

end ManifestScan
