import ClassWeave.Archive.Gzip

/-!
# Requests for data

A reader asks a stream for data in requests. How much a request gets depends on the rounds of the
stream, and how much the next one asks for depends on the buffer that the data goes into.

**Answers** (`Stream.given`). A request gets data of one round. It goes on with the next round only
if it starts at the start of a round, and bytes of the stretch are left.

**Buffers** (`Buffer`). A reader that cannot know the size of the data lets its buffer grow: a small
request shows whether there is data at all, and a full buffer is doubled.

**Main definition.** `Stream.requestAt` is the request that a reader makes at a position when it has
read everything before.
-/

namespace ClassWeave

namespace Stream

/-- What a request gets from rounds the first of which starts at the given position. -/
def givenByRounds : List Round → (position count : Nat) → Nat
  | [], _, count => count
  | r :: rounds, position, count =>
    let size := r.stop - position
    if count ≤ size || !r.bytesLeft then min count size
    else size + givenByRounds rounds r.stop (count - size)

def given (s : Stream) (position count : Nat) : Nat :=
  let startsRound := position = 0 || s.rounds.any (·.stop = position)
  match s.rounds.dropWhile (·.stop ≤ position) with
  | [] => count
  | r :: rounds =>
    if startsRound then givenByRounds (r :: rounds) position count
    else min count (r.stop - position)

end Stream

/-- A buffer that grows with the data in it. -/
structure Buffer where
  size : Nat
  capacity : Nat
  /-- The capacity before the first request. -/
  startCapacity : Nat
  /-- The greatest request. -/
  greatest : Nat

namespace Buffer

def smallRequest : Nat := 32

def ofCapacity (capacity : Nat) : Buffer := ⟨0, capacity, capacity, 8192⟩

/-- The capacity after a growth that has to make place for the given size. -/
def grown (capacity size : Nat) : Nat :=
  if size ≤ capacity then capacity else max 8 (max (2 * capacity) size)

/-- The next request is a small one, since the capacity may be all that is needed. -/
def asksLittle (b : Buffer) : Bool :=
  (b.size = 0 && b.capacity < smallRequest) ||
    (b.size = b.capacity && b.capacity = b.startCapacity)

/-- The capacity at the next request that is not a small one. -/
def room (b : Buffer) : Nat :=
  if b.size = b.capacity then grown b.capacity (b.size + smallRequest) else b.capacity

def request (b : Buffer) : Nat :=
  if b.asksLittle then smallRequest else min (b.room - b.size) b.greatest

/-- The buffer after the next request has got the given count of bytes. -/
def add (b : Buffer) (count : Nat) : Buffer :=
  if b.asksLittle then
    { b with size := b.size + count, capacity := grown b.capacity (b.size + count) }
  else
    { b with
      size := b.size + count
      capacity := b.room
      greatest := if b.greatest ≤ count then 2 * b.greatest else b.greatest }

end Buffer

/-- What a reader of the given count of bytes from `start` on asks for at a position. Each request
before that gets a byte at least, so the distance bounds their number. -/
def Stream.requestAt (s : Stream) (capacity start count position : Nat) : Nat :=
  go (position - start) (Buffer.ofCapacity capacity)
where
  /-- Makes requests up to the position. -/
  go : Nat → Buffer → Nat
    | 0, b => min b.request (count - b.size)
    | fuel + 1, b =>
      let request := min b.request (count - b.size)
      if start + b.size < position then go fuel (b.add (s.given (start + b.size) request))
      else request

end ClassWeave
