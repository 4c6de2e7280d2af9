import Zhwkrfsp.AVLAlloc
import Zhwkrfsp.AVLBalance
import Zhwkrfsp.AVLFrame
import Zhwkrfsp.AVLHeight
import Zhwkrfsp.AVLMemory
import Zhwkrfsp.AVLRotations
import Zhwkrfsp.AVLRuns
import Zhwkrfsp.AVLSearch
import Zhwkrfsp.AVLSet
import Zhwkrfsp.AVLShape
import Zhwkrfsp.AVLThreads
import Zhwkrfsp.AVLTree
import Zhwkrfsp.Address
import Zhwkrfsp.Alignment
import Zhwkrfsp.Atomicity
import Zhwkrfsp.BTree
import Zhwkrfsp.BTreeAlloc
import Zhwkrfsp.BTreeAscending
import Zhwkrfsp.BTreeErase
import Zhwkrfsp.BTreeInsert
import Zhwkrfsp.BTreeIterator
import Zhwkrfsp.BTreeMap
import Zhwkrfsp.BTreeSplit
import Zhwkrfsp.BTreeValid
import Zhwkrfsp.Bss
import Zhwkrfsp.BssCost
import Zhwkrfsp.BubbleCost
import Zhwkrfsp.BubbleSort
import Zhwkrfsp.Chain
import Zhwkrfsp.Codec
import Zhwkrfsp.Comparator
import Zhwkrfsp.Connection
import Zhwkrfsp.Content
import Zhwkrfsp.Exchange
import Zhwkrfsp.FileServer
import Zhwkrfsp.FlatSerial
import Zhwkrfsp.Framing
import Zhwkrfsp.FuseServer
import Zhwkrfsp.Lengths
import Zhwkrfsp.Linear
import Zhwkrfsp.ListBlock
import Zhwkrfsp.Listing
import Zhwkrfsp.Liveness
import Zhwkrfsp.Locking
import Zhwkrfsp.Machine
import Zhwkrfsp.Malformed
import Zhwkrfsp.Nested
import Zhwkrfsp.Netwrap
import Zhwkrfsp.OpenFlags
import Zhwkrfsp.OperationId
import Zhwkrfsp.OuidOrder
import Zhwkrfsp.Outcome
import Zhwkrfsp.Pairing
import Zhwkrfsp.Prog
import Zhwkrfsp.Progress
import Zhwkrfsp.Prot
import Zhwkrfsp.QList
import Zhwkrfsp.QListAlloc
import Zhwkrfsp.QListOps
import Zhwkrfsp.QListRuns
import Zhwkrfsp.QSet
import Zhwkrfsp.QSetMemory
import Zhwkrfsp.QVector
import Zhwkrfsp.QVectorCost
import Zhwkrfsp.Reading
import Zhwkrfsp.Remote
import Zhwkrfsp.RoundTrip
import Zhwkrfsp.Secrecy
import Zhwkrfsp.Serial
import Zhwkrfsp.Serialize
import Zhwkrfsp.SortedPairs
import Zhwkrfsp.StringComparator
import Zhwkrfsp.Swaps
import Zhwkrfsp.Transport
import Zhwkrfsp.Trie
import Zhwkrfsp.UnorderedMap
import Zhwkrfsp.Unserialize
import Zhwkrfsp.Ustruct
import Zhwkrfsp.Utils
