import BidBook.Auction.Setup
import BidBook.Tree
import BidBook.Report
import BidBook.Main
import BidBook.Proofs.Suits
import BidBook.Proofs.Expanded
import BidBook.Proofs.Openings
import BidBook.Proofs.Landings
import BidBook.Proofs.Spliced
import BidBook.Proofs.Pruned
import BidBook.Proofs.Precedence
import BidBook.Proofs.Tags
import BidBook.Proofs.Verdicts
import BidBook.Proofs.Retained
import BidBook.Proofs.Closed
import BidBook.Proofs.Compiled
import BidBook.Proofs.NormalForm
import BidBook.Proofs.Addresses
import BidBook.Proofs.Exclusive
import BidBook.Proofs.Mentions
import BidBook.Proofs.Shapes
import BidBook.Proofs.Outcomes
import BidBook.Proofs.MergeLaws
import BidBook.Proofs.Remembered
import BidBook.Proofs.Recognition
import BidBook.Proofs.Continuations
import BidBook.Proofs.Rounds
import BidBook.Proofs.RelayBids
import BidBook.Proofs.Removals
import BidBook.Proofs.Listings
import BidBook.Proofs.Distances
import BidBook.Proofs.TaggedTexts
import BidBook.Proofs.Sequences
import BidBook.Proofs.Unions
import BidBook.Proofs.StepCounts
import BidBook.Proofs.Parents
import BidBook.Proofs.LayeredSettings
import BidBook.Proofs.Numbers
import BidBook.Proofs.Creation
