import MovingHeap.Client.Run
import MovingHeap.Proofs.Accounting.Budget
import MovingHeap.Proofs.Accounting.Words
import MovingHeap.Proofs.Client.Copies
import MovingHeap.Proofs.Collection.Capacity
import MovingHeap.Proofs.Collection.Tally
import MovingHeap.Proofs.Heap.Introspection
import MovingHeap.Proofs.Heap.Place
import MovingHeap.Proofs.Heap.Registration
import MovingHeap.Proofs.Mutator.Failure
import MovingHeap.Proofs.Mutator.Identity
import MovingHeap.Proofs.Mutator.Message
import MovingHeap.Proofs.Mutator.Oversize
import MovingHeap.Proofs.Mutator.Record
import MovingHeap.Proofs.Mutator.StringArray
import MovingHeap.Proofs.Mutator.Tuple
import MovingHeap.Proofs.Native.Mapping
import MovingHeap.Proofs.Native.Strings
import MovingHeap.Proofs.Process.Frames
import MovingHeap.Proofs.Process.IntOption
import MovingHeap.Proofs.Process.OutOfMemory
import MovingHeap.Proofs.Process.Outlived
import MovingHeap.Proofs.Process.Protocol
import MovingHeap.Proofs.Process.Trusted
import MovingHeap.Proofs.Schedule.Unobservable
import MovingHeap.Proofs.Shape.Readers
import MovingHeap.Proofs.Collection.Progress
