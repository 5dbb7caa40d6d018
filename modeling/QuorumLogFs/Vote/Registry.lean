import QuorumLogFs.Basis.Runs
import QuorumLogFs.Basis.Scanf

/-!
# Where the servers are

Reference: `tcpServer` in `Server.c`, `connectThread` in `Client.c`, `server_loc.txt`.

A server that begins to listen appends a line to `server_loc.txt`, and never takes it out. A client asks
for `N` servers and reads as many lines; where there are too few, its arrays keep what `malloc` left in
them. The servers of a client are the first ones that have ever registered, so all clients that find
enough lines ask the same servers, in the same order.
-/

namespace QuorumLogFs.Vote

open QuorumLogFs.Basis

/-- The size of `addrArray[i]`. -/
def ADDRSIZE : ℕ := 64

/-- `hostname` and `serverPort` of a server, `addrArray[i]` and `port[i]` of a client. -/
structure ServerLoc where
  host : List Char
  port : ℤ
deriving DecidableEq

/-- `fprintf(fp,"%s %d\n",hostname,serverPort)` -/
def ServerLoc.line (loc : ServerLoc) : List Char := loc.host ++ ' ' :: (decimal loc.port ++ ['\n'])

/-- The host name is one word and has room in the arrays of a client; the port is an `int`. -/
def ServerLoc.Readable (loc : ServerLoc) : Prop :=
  IsWord loc.host ∧ loc.host.length < ADDRSIZE ∧ IsInt loc.port

instance : DecidablePred ServerLoc.Readable := fun _ => inferInstanceAs (Decidable (_ ∧ _))

/-- `fscanf(server_loc,"%s %d",addrArray[i],&port[i])`: what is stored and the rest of the file. A sign
without a number is consumed. -/
def fscanfServer (file : List Char) : Option (List Char) × Option ℤ × List Char :=
  let s := file.dropWhile isSpace
  let w := s.takeWhile fun c => !isSpace c
  let rest := (s.dropWhile fun c => !isSpace c).dropWhile isSpace
  if w = [] then (none, none, [])
  else
    match scanInt rest with
    | some (n, rest) => (some w, some (storedInt n), rest)
    | none => (some w, none, rest.drop (if rest.head? = some '-' ∨ rest.head? = some '+' then 1 else 0))

/-- The first loop of `connectThread`, for the `n` servers from `i` on. `old` is what `malloc` left in
the arrays; `none` when a name is written over the end of its array. -/
def readServers (old : ℕ → ServerLoc) (i : ℕ) : ℕ → List Char → Option (List ServerLoc)
  | 0, _ => some []
  | n + 1, file =>
    let r := fscanfServer file
    if ADDRSIZE ≤ (r.1.getD []).length then none
    else
      (readServers old (i + 1) n r.2.2).map fun locs =>
        ⟨r.1.getD (old i).host, r.2.1.getD (old i).port⟩ :: locs

/-! ## Lines are read back -/

variable {loc : ServerLoc} {locs : List ServerLoc}

/-- A line is read up to its end, and its newline is left. -/
theorem fscanfServer_line (h : loc.Readable) (file : List Char) :
    fscanfServer (loc.line ++ file) = (some loc.host, some loc.port, '\n' :: file) := by
  have hline : loc.line ++ file = loc.host ++ ' ' :: (decimal loc.port ++ '\n' :: file) := by
    simp [ServerLoc.line]
  have hnumber : (' ' :: (decimal loc.port ++ '\n' :: file)).dropWhile isSpace =
      decimal loc.port ++ '\n' :: file := by
    rw [List.dropWhile_cons_of_pos (by decide)]
    exact dropWhile_isSpace_word (isWord_decimal loc.port) _
  obtain ⟨hword, -, hport⟩ := h
  unfold fscanfServer
  rw [hline, dropWhile_isSpace_word hword]
  simp only [takeWhile_word hword (endsWord_space _), dropWhile_word hword (endsWord_space _), hnumber,
    if_neg hword.1, scanInt_decimal loc.port (endsWord_newline file).not_isDigit,
    storedInt_of_isInt hport]

/-- The newline that the line before has left is skipped. -/
theorem fscanfServer_newline (file : List Char) : fscanfServer ('\n' :: file) = fscanfServer file := by
  unfold fscanfServer
  rw [List.dropWhile_cons_of_pos (by decide)]

theorem readServers_newline (old : ℕ → ServerLoc) (i n : ℕ) (file : List Char) :
    readServers old i n ('\n' :: file) = readServers old i n file := by
  cases n with
  | zero => rfl
  | succ n => rw [readServers, readServers, fscanfServer_newline]

/-- At the end of the file the arrays stay as they are. -/
theorem readServers_eof (old : ℕ → ServerLoc) (i n : ℕ) :
    readServers old i n [] = some ((List.range' i n).map old) := by
  induction n generalizing i with
  | zero => rfl
  | succ n ih =>
    have hscan : fscanfServer [] = (none, none, []) := rfl
    have hroom : ¬ ADDRSIZE ≤ ([] : List Char).length := by decide
    rw [readServers, hscan]
    simp only [Option.getD_none, if_neg hroom]
    rw [ih, Option.map_some, List.range'_succ, List.map_cons]

/-- A client gets the servers in the order of the file, and then what was in the arrays. -/
theorem readServers_lines (old : ℕ → ServerLoc) (h : ∀ loc ∈ locs, loc.Readable) (i n : ℕ) :
    readServers old i n (locs.flatMap ServerLoc.line) =
      some (locs.take n ++ (List.range' (i + locs.length) (n - locs.length)).map old) := by
  induction locs generalizing i n with
  | nil => simpa using readServers_eof old i n
  | cons loc locs ih =>
    cases n with
    | zero => simp [readServers]
    | succ n =>
      have hloc := h loc List.mem_cons_self
      have hrest := ih (fun loc' hloc => h loc' (List.mem_cons_of_mem _ hloc)) (i + 1) n
      rw [readServers, List.flatMap_cons, fscanfServer_line hloc]
      simp only [Option.getD_some, if_neg (not_le.mpr hloc.2.1)]
      rw [readServers_newline, hrest, Option.map_some, List.take_succ_cons, List.length_cons,
        Nat.add_sub_add_right, Nat.add_right_comm, Nat.add_assoc]
      rfl

/-! ## Runs -/

/-- What happens to `server_loc.txt`. -/
inductive RegistryEvent where
  /-- A server begins to listen. -/
  | listen (loc : ServerLoc)
  /-- A client reads `N` servers. -/
  | connect (N : ℕ)
deriving DecidableEq

/-- One event: the file. -/
def registryStep (file : List Char) : RegistryEvent → Option (List Char)
  | .listen loc => some (file ++ loc.line)
  | .connect _ => some file

def RegistryEvent.listener : RegistryEvent → Option ServerLoc
  | .listen loc => some loc
  | .connect _ => none

/-- The servers that begin to listen, in their order. -/
def listeners (es : List RegistryEvent) : List ServerLoc := es.filterMap RegistryEvent.listener

theorem listeners_append (es es' : List RegistryEvent) :
    listeners (es ++ es') = listeners es ++ listeners es' :=
  List.filterMap_append

/-- The file has a line for each server that has begun to listen. -/
theorem file_of_run {es : List RegistryEvent} {file : List Char}
    (hrun : run registryStep [] es = some file) : file = (listeners es).flatMap ServerLoc.line := by
  induction es using List.reverseRecOn generalizing file with
  | nil => exact (Option.some.inj hrun).symm
  | append_singleton es e ih =>
    rw [run_snoc] at hrun
    obtain ⟨before, hbefore, hlast⟩ := Option.bind_eq_some_iff.mp hrun
    have hfile := ih hbefore
    rw [listeners_append, List.flatMap_append, ← hfile]
    cases e with
    | listen loc =>
      obtain rfl := Option.some.inj hlast
      simp [listeners, RegistryEvent.listener]
    | connect N =>
      obtain rfl := Option.some.inj hlast
      simp [listeners, RegistryEvent.listener]

/-- The servers in front are those of any longer run. -/
theorem take_listeners {es es' : List RegistryEvent} {N : ℕ} (hp : es' <+: es)
    (hN : N ≤ (listeners es').length) : (listeners es').take N = (listeners es).take N := by
  obtain ⟨rest, rfl⟩ := hp
  rw [listeners_append, List.take_append_of_le_length hN]

/-- A server on the host of the repository. -/
def onUbuntu (port : ℤ) : ServerLoc := ⟨"ubuntu".toList, port⟩

end QuorumLogFs.Vote
