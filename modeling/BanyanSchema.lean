import BanyanSchema.Api
import BanyanSchema.Etcd
import BanyanSchema.Keys
import BanyanSchema.IndexField
import BanyanSchema.StreamWrite
import BanyanSchema.Schema
import BanyanSchema.Registry
import BanyanSchema.Concurrency
import BanyanSchema.RoundTrip
import BanyanSchema.Session
import BanyanSchema.Groups
import BanyanSchema.Listing
import BanyanSchema.Notifications
import BanyanSchema.Failures
import BanyanSchema.InFlight
import BanyanSchema.Dispatch
