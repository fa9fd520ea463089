import Kimmy.ByteOrder
import Mathlib.Data.Nat.Basic

/-!
Reading a binary format back. A reader takes a value off the front of its input; `Reads` ties
it to the function that writes the value, in both directions, for inputs shorter than what a
64-bit length can count. Sequences carry their length in front, and what collects their items
may refuse an item, as a map does that wants its keys in order.
-/
namespace Kimmy.Reading
open ByteOrder

/-! Words, most significant byte first. -/

def unbe (b : Bytes) : Nat := b.foldl (fun n c => 256 * n + c.toNat) 0

theorem foldBytes (b : Bytes) (n : Nat) :
    b.foldl (fun n c => 256 * n + c.toNat) n = n * 256 ^ b.length + unbe b := by
  induction b generalizing n with
  | nil => simp [unbe]
  | cons c b ih =>
      have split : unbe (c :: b) = c.toNat * 256 ^ b.length + unbe b := by
        rw [unbe, List.foldl_cons, ih]
        simp
      rw [List.foldl_cons, ih, split, List.length_cons, pow_succ]
      ring

theorem unbeCons (c : UInt8) (b : Bytes) : unbe (c :: b) = c.toNat * 256 ^ b.length + unbe b := by
  rw [unbe, List.foldl_cons, foldBytes]
  simp

theorem unbeBound (b : Bytes) : unbe b < 256 ^ b.length := by
  induction b with
  | nil => simp [unbe]
  | cons c b ih =>
      have byte := c.toNat_lt
      rw [unbeCons, List.length_cons, pow_succ]
      calc c.toNat * 256 ^ b.length + unbe b
          < c.toNat * 256 ^ b.length + 256 ^ b.length := by omega
        _ = (c.toNat + 1) * 256 ^ b.length := by ring
        _ ≤ 256 * 256 ^ b.length := Nat.mul_le_mul_right _ (by omega)
        _ = 256 ^ b.length * 256 := Nat.mul_comm _ _

theorem unbeBe {w n : Nat} (small : n < 256 ^ w) : unbe (be w n) = n := by
  induction w generalizing n with
  | zero =>
      have zero : n = 0 := by simpa using small
      rw [zero]
      rfl
  | succ w ih =>
      have digit : n / 256 ^ w < 256 := Nat.div_lt_of_lt_mul (by rwa [←pow_succ])
      have byte : (UInt8.ofNat (n / 256 ^ w)).toNat = n / 256 ^ w := by
        rw [UInt8.toNat_ofNat']
        exact Nat.mod_eq_of_lt digit
      rw [be, unbeCons, beLength, byte, ih (Nat.mod_lt _ (by positivity)), Nat.mul_comm]
      exact Nat.div_add_mod n (256 ^ w)

theorem beUnbe (b : Bytes) : be b.length (unbe b) = b := by
  induction b with
  | nil => rfl
  | cons c b ih =>
      have bound := unbeBound b
      have positive : 0 < 256 ^ b.length := by positivity
      have high : (c.toNat * 256 ^ b.length + unbe b) / 256 ^ b.length = c.toNat := by
        rw [Nat.mul_comm, Nat.mul_add_div positive, Nat.div_eq_of_lt bound, Nat.add_zero]
      have low : (c.toNat * 256 ^ b.length + unbe b) % 256 ^ b.length = unbe b := by
        rw [Nat.mul_comm, Nat.mul_add_mod, Nat.mod_eq_of_lt bound]
      rw [unbeCons, List.length_cons, be, high, low, ih]
      simp

/-! Readers. -/

abbrev Reader (ε α : Type) := StateT Bytes (Except ε) α

/- `read` takes back what `write` wrote, and accepts nothing else. -/
structure Reads {ε α : Type} (good : α → Prop) (write : α → Bytes) (read : Reader ε α) : Prop where
  back : ∀ {a} rest, good a → (write a).length < 256 ^ 8 → read.run (write a ++ rest) = .ok (a,rest)
  only : ∀ {b a rest}, read.run b = .ok (a,rest) → b = write a ++ rest ∧ good a

section
variable {ε α β : Type}

def fail (e : ε) : Reader ε α := fun _ => .error e

/- What a check of an already read value gives. -/
def checked (x : Except ε α) : Reader ε α := fun b => x.map fun a => (a,b)

def take (short : ε) (n : Nat) : Reader ε Bytes := fun b =>
  if n ≤ b.length then .ok (b.take n,b.drop n) else .error short

def word (short : ε) (width : Nat) : Reader ε Nat := do
  let b ← take short width
  pure (unbe b)

def byte (short : ε) : Reader ε UInt8 := do
  let n ← word short 1
  pure (.ofNat n)

theorem runBind (first : Reader ε α) (next : α → Reader ε β) (b : Bytes) :
    (first >>= next).run b = (first.run b).bind fun x => (next x.1).run x.2 := rfl

theorem runBindOk {first : Reader ε α} {next : α → Reader ε β} {b c rest} :
    (first >>= next).run b = .ok (c,rest) ↔
      ∃ a mid, first.run b = .ok (a,mid) ∧ (next a).run mid = .ok (c,rest) := by
  rw [runBind]
  cases first.run b with
  | error e => simp [Except.bind]
  | ok x =>
      rcases x with ⟨a, mid⟩
      simp [Except.bind]

theorem readsPure {good : α → Prop} {write : α → Bytes} {a : α} (fine : good a) (sole : ∀ c, good c → c = a)
    (empty : write a = []) : Reads good write (pure a : Reader ε α) where
  back {c} rest held _ := by
    rw [sole c held, empty]
    rfl
  only {b c rest} found := by
    have same : (a,b) = (c,rest) := Except.ok.inj found
    cases same
    rw [empty]
    exact ⟨rfl,fine⟩

theorem Reads.congr {good : α → Prop} {write other : α → Bytes} {read : Reader ε α} (reads : Reads good write read)
    (same : ∀ a, good a → other a = write a) : Reads good other read where
  back {a} rest held small := by
    rw [same a held] at small ⊢
    exact reads.back rest held small
  only {b a rest} found := by
    obtain ⟨shape, held⟩ := reads.only found
    rw [same a held]
    exact ⟨shape,held⟩

theorem Reads.iff {good fine : α → Prop} {write : α → Bytes} {read : Reader ε α} (reads : Reads good write read)
    (same : ∀ a, fine a ↔ good a) : Reads fine write read where
  back rest held small := reads.back rest ((same _).mp held) small
  only found := (reads.only found).imp id (same _).mpr

theorem readsFail {good : α → Prop} {write : α → Bytes} {e : ε} (none : ∀ a, ¬ good a) :
    Reads good write (fail e) where
  back {a} _ held _ := absurd held (none a)
  only found := by cases found

/- One value after another: `part` is what the first reader finds of the whole. -/
theorem readsBind {good : β → Prop} {fine : α → Prop} {head : α → Bytes} {tail : β → Bytes}
    {first : Reader ε α} {next : α → Reader ε β} (part : β → α) (reads : Reads fine head first)
    (within : ∀ c, good c → fine (part c))
    (rest : ∀ a, fine a → Reads (fun c => good c ∧ part c = a) tail (next a)) :
    Reads good (fun c => head (part c) ++ tail c) (first >>= next) where
  back {c} later held small := by
    rw [List.length_append] at small
    have one := reads.back (tail c ++ later) (within c held) (by omega)
    have two := (rest (part c) (within c held)).back later ⟨held,rfl⟩ (by omega)
    rw [List.append_assoc, runBind, one]
    exact two
  only {b c later} found := by
    obtain ⟨a, mid, one, two⟩ := runBindOk.mp found
    obtain ⟨rfl, fineA⟩ := reads.only one
    obtain ⟨rfl, held, same⟩ := (rest a fineA).only two
    rw [same, List.append_assoc]
    exact ⟨rfl,held⟩

/- A value read through another one. -/
theorem readsMap {good : β → Prop} {fine : α → Prop} {write : α → Bytes} {read : Reader ε α} {make : α → β}
    (parts : β → α) (reads : Reads fine write read) (within : ∀ c, good c → fine (parts c))
    (back : ∀ a, fine a → good (make a) ∧ parts (make a) = a) (forth : ∀ c, good c → make (parts c) = c) :
    Reads good (fun c => write (parts c)) (do let a ← read; pure (make a)) := by
  have whole : Reads good (fun c => write (parts c) ++ []) (do let a ← read; pure (make a)) := by
    refine readsBind parts reads within fun a fineA => readsPure (back a fineA) (fun c held => ?_) rfl
    rw [←forth c held.1, held.2]
  simpa only [List.append_nil] using whole

theorem readsTake {short : ε} {n : Nat} : Reads (fun b : Bytes => b.length = n) id (take short n) where
  back {a} rest size _ := by
    have enough : n ≤ (a ++ rest).length := by
      rw [List.length_append]
      omega
    simp only [take, StateT.run, id, if_pos enough, List.take_left' size, List.drop_left' size]
  only {b a rest} found := by
    simp only [take, StateT.run] at found
    split_ifs at found with enough
    cases found
    exact ⟨(List.take_append_drop n b).symm,by simp [enough]⟩

theorem readsWord {short : ε} {width : Nat} : Reads (fun n => n < 256 ^ width) (be width) (word short width) :=
  readsMap (be width) readsTake (fun n _ => beLength width n)
    (fun b size => by
      subst size
      exact ⟨unbeBound b,beUnbe b⟩)
    fun _ small => unbeBe small

theorem readsByte {short : ε} : Reads (fun _ => True) (fun c : UInt8 => [c]) (byte short) := by
  have single (c : UInt8) : be 1 c.toNat = [c] := by simp [be]
  have reads : Reads (fun _ => True) (fun c : UInt8 => be 1 c.toNat) (byte short) :=
    readsMap UInt8.toNat readsWord (fun c _ => c.toNat_lt)
      (fun n small => ⟨trivial,UInt8.toNat_ofNat_of_lt' small⟩) fun c _ => UInt8.ofNat_toNat
  simpa only [single] using reads

/- A tag, and what it stands for. -/
theorem readsTag {short : ε} {good : β → Prop} {tag : β → UInt8} {tail : β → Bytes} {next : UInt8 → Reader ε β}
    (branches : ∀ t, Reads (fun c => good c ∧ tag c = t) tail (next t)) :
    Reads good (fun c => tag c :: tail c) (byte short >>= next) :=
  readsBind tag readsByte (fun _ _ => trivial) fun t _ => branches t

/- One value after another, as a pair. -/
theorem readsPair {fine : α → Prop} {good : β → Prop} {head : α → Bytes} {tail : β → Bytes} {first : Reader ε α}
    {second : Reader ε β} (reads : Reads fine head first) (reads' : Reads good tail second) :
    Reads (fun x => fine x.1 ∧ good x.2) (fun x => head x.1 ++ tail x.2)
      (do let a ← first; let b ← second; pure (a,b)) := by
  refine readsBind Prod.fst reads (fun _ held => held.1) fun a fineA => ?_
  refine readsMap Prod.snd reads' (fun _ held => held.1.2) (fun b fineB => ⟨⟨⟨fineA,fineB⟩,rfl⟩,rfl⟩) ?_
  rintro ⟨x, y⟩ ⟨_, rfl⟩
  rfl

end

/-! Sequences. -/

section
variable {ε α σ : Type}

/- A length in front of that many items. A length past the end of the input is refused. -/
def length (short : ε) : Reader ε Nat := do
  let n ← word short 8
  let rest ← get
  if rest.length < n then fail short else pure n

def fill (item : Reader ε α) (put : σ → α → Except ε σ) : Nat → σ → Reader ε σ
  | 0, s => pure s
  | n + 1, s => do
      let a ← item
      let s ← checked (put s a)
      fill item put n s

def many (short : ε) (start : σ) (item : Reader ε α) (put : σ → α → Except ε σ) : Reader ε σ := do
  let n ← length short
  fill item put n start

/- `put` adds an item at the end of what `view` shows, and takes every item of a collection
that can be built. -/
structure Builds (view : σ → List α) (put : σ → α → Except ε σ) : Prop where
  grows : ∀ {s a t}, put s a = .ok t → view t = view s ++ [a]
  accepts : ∀ {s a later t}, view t = view s ++ a :: later → ∃ u, put s a = .ok u
  same : ∀ {s t}, view s = view t → s = t

theorem checkedOk {x : Except ε α} {b a rest} : (checked x).run b = .ok (a,rest) ↔ x = .ok a ∧ b = rest := by
  cases x with
  | error e => simp [checked, StateT.run, Except.map]
  | ok y => simp [checked, StateT.run, Except.map]

variable {view : σ → List α} {put : σ → α → Except ε σ} {item : Reader ε α} {good : α → Prop} {write : α → Bytes}

theorem fillBack (builds : Builds view put) (reads : Reads good write item) (later : Bytes) (t : σ) :
    ∀ (xs : List α) (s : σ), view t = view s ++ xs → (∀ a ∈ xs, good a) → (xs.flatMap write).length < 256 ^ 8 →
      (fill item put xs.length s).run (xs.flatMap write ++ later) = .ok (t,later)
  | [], s, shape, _, _ => by
      rw [List.append_nil] at shape
      rw [builds.same shape]
      rfl
  | a :: xs, s, shape, fine, small => by
      obtain ⟨u, taken⟩ := builds.accepts shape
      have grown := builds.grows taken
      rw [List.flatMap_cons, List.length_append] at small
      have one := reads.back (xs.flatMap write ++ later) (fine a List.mem_cons_self) (by omega)
      have rest := fillBack builds reads later t xs u (by rw [grown, shape]; simp)
        (fun x member => fine x (List.mem_cons_of_mem _ member)) (by omega)
      rw [List.length_cons, fill, List.flatMap_cons, List.append_assoc]
      refine runBindOk.mpr ⟨a,_,one,runBindOk.mpr ⟨u,_,checkedOk.mpr ⟨taken,rfl⟩,rest⟩⟩

theorem fillOnly (builds : Builds view put) (reads : Reads good write item) {t : σ} {later : Bytes} :
    ∀ {n : Nat} {s : σ} {b : Bytes}, (fill item put n s).run b = .ok (t,later) →
      ∃ xs, xs.length = n ∧ view t = view s ++ xs ∧ b = xs.flatMap write ++ later ∧ ∀ a ∈ xs, good a
  | 0, s, b, found => by
      have same : (s,b) = (t,later) := Except.ok.inj found
      cases same
      exact ⟨[],rfl,by simp,rfl,nofun⟩
  | n + 1, s, b, found => by
      obtain ⟨a, mid, one, rest⟩ := runBindOk.mp found
      obtain ⟨u, mid', two, rest⟩ := runBindOk.mp rest
      obtain ⟨taken, rfl⟩ := checkedOk.mp two
      obtain ⟨rfl, fine⟩ := reads.only one
      obtain ⟨xs, size, shape, rfl, all⟩ := fillOnly builds reads rest
      refine ⟨a :: xs,by simp [size],?_,by simp [List.flatMap_cons],List.forall_mem_cons.mpr ⟨fine,all⟩⟩
      rw [shape, builds.grows taken]
      simp

theorem itemsLong (some : ∀ a, good a → write a ≠ []) : ∀ {xs : List α}, (∀ a ∈ xs, good a) →
    xs.length ≤ (xs.flatMap write).length
  | [], _ => by simp
  | a :: xs, fine => by
      have head := List.length_pos_of_ne_nil (some a (fine a List.mem_cons_self))
      have tail := itemsLong some fun x member => fine x (List.mem_cons_of_mem _ member)
      rw [List.flatMap_cons, List.length_append, List.length_cons]
      omega

theorem readsMany {short : ε} {start : σ} (builds : Builds view put) (empty : view start = [])
    (reads : Reads good write item) (some : ∀ a, good a → write a ≠ []) :
    Reads (fun t => ∀ a ∈ view t, good a) (fun t => be 8 (view t).length ++ (view t).flatMap write)
      (many short start item put) where
  back {t} later fine small := by
    rw [List.length_append, beLength] at small
    have long := itemsLong some fine
    have counting : Reads (fun n => n < 256 ^ 8) (be 8) (word short 8) := readsWord
    have counted := counting.back ((view t).flatMap write ++ later) (show (view t).length < 256 ^ 8 by omega)
      (by rw [beLength]; decide)
    have filled := fillBack builds reads later t (view t) start (by rw [empty, List.nil_append]) fine (by omega)
    have enough : ¬ ((view t).flatMap write ++ later).length < (view t).length := by
      rw [List.length_append]
      omega
    rw [List.append_assoc]
    refine runBindOk.mpr ⟨(view t).length,_,runBindOk.mpr ⟨_,_,counted,?_⟩,filled⟩
    refine runBindOk.mpr ⟨_,_,rfl,?_⟩
    rw [if_neg enough]
    rfl
  only {b t later} found := by
    obtain ⟨n, mid, counted, filled⟩ := runBindOk.mp found
    obtain ⟨m, mid', one, two⟩ := runBindOk.mp counted
    obtain ⟨rfl, _⟩ := readsWord.only one
    obtain ⟨rest, same, got, two⟩ := runBindOk.mp two
    cases got
    split_ifs at two with short
    · cases two
    · cases two
      obtain ⟨xs, size, shape, rfl, fine⟩ := fillOnly builds reads filled
      rw [empty, List.nil_append] at shape
      rw [shape, size, List.append_assoc]
      exact ⟨rfl,fine⟩

end

/- A length in front of that many bytes. -/
def blob {ε : Type} (short : ε) : Reader ε Bytes := do
  let n ← length short
  take short n

theorem readsBlob {ε : Type} {short : ε} : Reads (fun _ => True) (fun b : Bytes => be 8 b.length ++ b) (blob short) where
  back {b} later _ small := by
    rw [List.length_append, beLength] at small
    have counting : Reads (fun n => n < 256 ^ 8) (be 8) (word short 8) := readsWord
    have counted := counting.back (b ++ later) (show b.length < 256 ^ 8 by omega) (by rw [beLength]; decide)
    have enough : ¬ (b ++ later).length < b.length := by
      rw [List.length_append]
      omega
    have taking : Reads (fun x : Bytes => x.length = b.length) id (take short b.length) := readsTake
    have taken := taking.back (a := b) later rfl (show b.length < 256 ^ 8 by omega)
    rw [List.append_assoc]
    refine runBindOk.mpr ⟨b.length,b ++ later,runBindOk.mpr ⟨_,_,counted,?_⟩,taken⟩
    refine runBindOk.mpr ⟨_,_,rfl,?_⟩
    rw [if_neg enough]
    rfl
  only {b a later} found := by
    obtain ⟨n, mid, counted, taken⟩ := runBindOk.mp found
    obtain ⟨m, mid', one, two⟩ := runBindOk.mp counted
    obtain ⟨rfl, _⟩ := readsWord.only one
    obtain ⟨rest, same, got, two⟩ := runBindOk.mp two
    cases got
    split_ifs at two with short
    · cases two
    · cases two
      obtain ⟨rfl, size⟩ := readsTake.only taken
      rw [size, List.append_assoc]
      exact ⟨rfl,trivial⟩

end Kimmy.Reading
