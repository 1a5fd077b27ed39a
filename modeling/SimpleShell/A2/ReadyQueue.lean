import SimpleShell.A2.ShellMemory

/-!
# The ready queue

The hand-linked list of processes, head first.
-/

namespace SimpleShell.A2

def MAX_INT : Nat := 2147483646

def readyQueueAddToTail (queue : List PCB) (node : PCB) : List PCB := queue ++ [node]

def readyQueueAddToHead (queue : List PCB) (node : PCB) : List PCB := node :: queue

def readyQueueDecrementJobLengthScore (queue : List PCB) : List PCB :=
  queue.map fun pcb =>
    if pcb.jobLengthScore > 0 then { pcb with jobLengthScore := pcb.jobLengthScore - 1 } else pcb

def swapNeeded (cur next : PCB) : Bool :=
  if cur.priority && next.priority then decide (cur.jobLengthScore > next.jobLengthScore)
  else if cur.priority && !next.priority then false
  else if !cur.priority && next.priority then true
  else decide (cur.jobLengthScore > next.jobLengthScore)

/-- The inner loop, from a node on: it carries the node along while it has to be
swapped with the next one and goes on to the next one otherwise. -/
def sortFrom : PCB → List PCB → List PCB
  | cur, [] => [cur]
  | cur, next :: rest =>
      if swapNeeded cur next then next :: sortFrom cur rest else cur :: sortFrom next rest

/-- The outer loop runs the inner one a second time only from the last node,
where it has nothing left to do. -/
def sortReadyQueue : List PCB → List PCB
  | [] => []
  | head :: rest => sortFrom head rest

def readyQueueGetShortestJobScore (queue : List PCB) : Int :=
  queue.foldl (fun shortest pcb =>
    if pcb.jobLengthScore < shortest then pcb.jobLengthScore else shortest) MAX_INT

/-- Moves the first node with the score to the head. -/
def readyQueuePromote (queue : List PCB) (score : Int) : List PCB :=
  match queue with
  | [] => []
  | head :: tail =>
      if head.jobLengthScore = score then head :: tail
      else
        match tail.span (fun pcb => pcb.jobLengthScore ≠ score) with
        | (before, next :: after) => next :: head :: before ++ after
        | (_, []) => head :: tail

end SimpleShell.A2
